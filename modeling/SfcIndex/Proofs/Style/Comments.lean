import SfcIndex.Proofs.Bytes.Encoding
import SfcIndex.Style

/-! # The comments of a style

`Style.comments` finds the comments by searching for `/*` and then for `*/`, again and again. A scan
that goes from character to character meets the same comments (`Style.comments_cons`,
`Style.comments_open`, `Style.commentFrom_cons`, `Style.commentFrom_close`).
-/

namespace SfcIndex.Style

open Text Bytes

/-- The comments of a style that is read from byte `offset` on. A comment goes from `/*` through the
first `*/` behind that, or to the end of the style. -/
def comments (offset : Nat) (text : List Char) : List Span :=
  match text with
  | [] => []
  | c :: rest =>
    match before? ['/', '*'] (c :: rest) with
    | none => []
    | some before =>
      let start := offset + width before
      let body := (c :: rest).drop (before.length + 2)
      match before? ['*', '/'] body with
      | none => [⟨start, start + 2 + width body⟩]
      | some inside =>
        let stop := start + 2 + width inside + 2
        ⟨start, stop⟩ :: comments stop (body.drop (inside.length + 2))
  termination_by text.length
  decreasing_by
    simp only [List.length_drop, List.length_cons]
    omega

/-- The comment that starts at a byte, and those behind it, with the text behind its `/*` read from
byte `offset` on. -/
def commentFrom (start offset : Nat) (body : List Char) : List Span :=
  match before? ['*', '/'] body with
  | none => [⟨start, offset + width body⟩]
  | some inside =>
    ⟨start, offset + width inside + 2⟩ ::
      comments (offset + width inside + 2) (body.drop (inside.length + 2))

/-- Whether one of the ranges holds the byte at a place. -/
def Inside (ranges : List Span) (place : Nat) : Prop :=
  ∃ range ∈ ranges, range.start ≤ place ∧ place < range.stop

section

variable {offset start place : Nat} {text rest : List Char} {c : Char}

/-- A text in which no comment opens has none. -/
theorem comments_of_none (none : before? ['/', '*'] text = none) : comments offset text = [] := by
  cases text with
  | nil => rw [comments]
  | cons c rest => rw [comments, none]

/-- The first comment opens at the first `/*`. -/
theorem comments_of_some {before : List Char} (opens : before? ['/', '*'] text = some before) :
    comments offset text =
      commentFrom (offset + width before) (offset + width before + 2)
        (text.drop (before.length + 2)) := by
  cases text with
  | nil => cases opens
  | cons c rest => rw [comments, opens, commentFrom]

/-- A character that opens no comment is passed over. -/
theorem comments_cons (other : ['/', '*'].isPrefixOf (c :: rest) = false) :
    comments offset (c :: rest) = comments (offset + c.utf8Size) rest := by
  have step : before? ['/', '*'] (c :: rest) = (before? ['/', '*'] rest).map (c :: ·) := by
    rw [before?, if_neg (by rw [other]; exact Bool.false_ne_true)]
  cases opens : before? ['/', '*'] rest with
  | none =>
    rw [opens] at step
    rw [comments_of_none step, comments_of_none opens]
  | some before =>
    rw [opens] at step
    rw [comments_of_some step, comments_of_some opens, width_cons, ← Nat.add_assoc]
    rfl

/-- Where a comment opens, the rest of the text is read in it. -/
theorem comments_open :
    comments offset ('/' :: '*' :: rest) = commentFrom offset (offset + 2) rest := by
  have opens : before? ['/', '*'] ('/' :: '*' :: rest) = some [] := if_pos rfl
  rw [comments_of_some opens]
  rfl

/-- A comment goes on over a character that does not close it. -/
theorem commentFrom_cons (other : ['*', '/'].isPrefixOf (c :: rest) = false) :
    commentFrom start offset (c :: rest) = commentFrom start (offset + c.utf8Size) rest := by
  rw [commentFrom, commentFrom, before?, if_neg (by rw [other]; exact Bool.false_ne_true)]
  cases before? ['*', '/'] rest with
  | none => rw [Option.map_none, width_cons, ← Nat.add_assoc]
  | some inside =>
    dsimp only [Option.map_some]
    rw [width_cons, ← Nat.add_assoc]
    rfl

/-- A comment ends behind the first `*/`. -/
theorem commentFrom_close :
    commentFrom start offset ('*' :: '/' :: rest) =
      ⟨start, offset + 2⟩ :: comments (offset + 2) rest := by
  have closes : before? ['*', '/'] ('*' :: '/' :: rest) = some [] := if_pos rfl
  rw [commentFrom, closes]
  rfl

/-- The comments of a text lie in it. -/
theorem le_of_mem_comments {range : Span} (member : range ∈ comments offset text) :
    offset ≤ range.start := by
  fun_induction comments offset text with
  | case1 => cases member
  | case2 => cases member
  | case3 offset c rest before opens start body none =>
    rw [List.mem_singleton.1 member]
    exact Nat.le_add_right _ _
  | case4 offset c rest before opens start body inside closes stop ih =>
    rcases List.mem_cons.1 member with rfl | later
    · exact Nat.le_add_right _ _
    · have := ih later
      omega

/-- Nothing in front of a text is inside one of its comments. -/
theorem not_inside_of_lt (before : place < offset) : ¬ Inside (comments offset text) place := by
  intro holds
  obtain ⟨range, member, start_le, _⟩ := holds
  have := le_of_mem_comments member
  omega

/-- An open comment holds all bytes from its start to the character that is read next. -/
theorem inside_commentFrom (start_le : start ≤ place) (before : place < offset) :
    Inside (commentFrom start offset text) place := by
  unfold commentFrom
  split
  next => exact ⟨_, List.mem_singleton.2 rfl, start_le, Nat.lt_add_right _ before⟩
  next => exact ⟨_, List.mem_cons_self, start_le, by dsimp only; omega⟩

/-- A place is inside the first range or inside one of the others. -/
theorem inside_cons_iff {range : Span} {ranges : List Span} :
    Inside (range :: ranges) place ↔
      (range.start ≤ place ∧ place < range.stop) ∨ Inside ranges place := by
  simp [Inside]

end

end SfcIndex.Style
