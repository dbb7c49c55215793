import SfcIndex.Proofs.Bytes.Tags
import SfcIndex.Proofs.Markup.Attributes

/-! # Splitting attributes by bytes

The text of a tag's attributes is cut into tokens by its bytes, and a token into a key and a value.
This gives the attributes that cutting by characters gives, and nothing goes wrong when the text
ends below the limit (`Bytes.attributesFrom_eq`).
-/

namespace SfcIndex.Bytes

open Text Markup

/-- The quote that is open after one more byte, given the one open before it. -/
def quoteAfter (openQuote : Option UInt8) (byte : UInt8) : Option UInt8 :=
  match openQuote with
  | some quote => if byte = quote then none else some quote
  | none => if byte = byteOf '"' || byte = byteOf '\'' then some byte else none

/-- The index where a token ends: at the first blank outside quotes, or at the end. -/
def tokenStop (bytes : List UInt8) (openQuote : Option UInt8) (index : Nat) : Except Fault Nat :=
  if index < bytes.length then do
    let byte ← byteAt bytes index
    if openQuote.isNone && onBytes isAsciiBlank byte then return index
    else tokenStop bytes (quoteAfter openQuote byte) (index + 1)
  else return index
  termination_by bytes.length - index

/-- A value without a pair of matching quotes around it, and the bytes left out before it. -/
def unquoted (raw : List Char) : Except Fault (List Char × Nat) :=
  match (encode raw).head? with
  | some quote =>
    if (quote = byteOf '"' || quote = byteOf '\'') && 2 ≤ (encode raw).length then do
      let last ← difference (encode raw).length 1
      if (← byteAt (encode raw) last) == quote then return (← textIn raw 1 last, 1)
      else return (raw, 0)
    else return (raw, 0)
  | none => return (raw, 0)

/-- The attribute that a token at an offset spells. -/
def attributeOf? (token : List Char) (offset : Nat) : Except Fault (Option Attribute) := do
  let key := token.takeWhile (· ≠ '=')
  if key.isEmpty || key = ['/'] then return none
  else
    let keyStop ← sum offset (← toOffset (width key))
    match token.dropWhile (· ≠ '=') with
    | [] => return some ⟨String.ofList key, ⟨offset, keyStop⟩, none⟩
    | _ :: raw =>
      let (inner, skipped) ← unquoted raw
      let start ← sum (← sum keyStop 1) skipped
      let stop ← sum start (← toOffset (width inner))
      let value : AttributeValue := ⟨String.ofList inner, ⟨start, stop⟩⟩
      return some ⟨String.ofList key, ⟨offset, keyStop⟩, some value⟩

section

variable {bytes : List UInt8} {openQuote : Option UInt8} {byte : UInt8} {index : Nat}

/-- What the search for the end of a token does with one byte. -/
theorem tokenStop_step (read : byteAt bytes index = .ok byte) :
    tokenStop bytes openQuote index =
      if openQuote.isNone && onBytes isAsciiBlank byte then .ok index
      else tokenStop bytes (quoteAfter openQuote byte) (index + 1) := by
  rw [tokenStop, if_pos (lt_of_byteAt read), read]
  rfl

/-- A token does not end in front of its start. -/
theorem le_of_tokenStop {stop : Nat} (found : tokenStop bytes openQuote index = .ok stop) :
    index ≤ stop := by
  fun_induction tokenStop bytes openQuote index with
  | case1 openQuote index inside ih =>
    obtain ⟨byte, -, found⟩ := Offset.exists_of_bind found
    split at found
    next => exact (Except.ok.inj found).le
    next => exact Nat.le_of_succ_le (ih byte found)
  | case2 openQuote index outside => exact (Except.ok.inj found).le

/-- A token that starts with no blank is not empty. -/
theorem lt_of_tokenStop {stop : Nat} (read : byteAt bytes index = .ok byte)
    (solid : ¬ onBytes isAsciiBlank byte = true) (found : tokenStop bytes none index = .ok stop) :
    index < stop := by
  rw [tokenStop_step read, if_neg (by simpa using solid)] at found
  exact le_of_tokenStop found

end

/-- The attributes of an attribute text that starts at an offset, from an index in the text on. -/
def attributesFrom (text : List Char) (base index : Nat) : Except Fault (List Attribute) :=
  if index < (encode text).length then
    match _read : byteAt (encode text) index with
    | .error fault => .error fault
    | .ok byte =>
      if onBytes isAsciiBlank byte then attributesFrom text base (index + 1)
      else
        match _ends : tokenStop (encode text) none index with
        | .error fault => .error fault
        | .ok stop => do
          let token ← textIn text index stop
          let found ← attributeOf? token (← sum base (← toOffset index))
          return found.toList ++ (← attributesFrom text base stop)
  else return []
  termination_by (encode text).length - index
  decreasing_by
    · omega
    · have := lt_of_tokenStop _read (by assumption) _ends
      omega

section

variable {text rest : List Char} {index : Nat}

/-- A byte that is no character on its own opens and closes no quote. -/
theorem quoteAfter_large {openQuote : Option Char} {byte : UInt8}
    (known : ∀ quote ∈ openQuote, IsAscii quote) (large : 128 ≤ byte.toNat) :
    quoteAfter (openQuote.map byteOf) byte = openQuote.map byteOf := by
  cases openQuote with
  | none =>
    have double : byte ≠ byteOf '"' := ne_byteOf_of_large large (by decide)
    have single : byte ≠ byteOf '\'' := ne_byteOf_of_large large (by decide)
    simp [quoteAfter, double, single]
  | some quote => exact if_neg (ne_byteOf_of_large large (known quote rfl))

/-- Through bytes that are no ASCII a token goes on. -/
theorem tokenStop_run {bytes run tail : List UInt8} {openQuote : Option Char}
    (known : ∀ quote ∈ openQuote, IsAscii quote) (large : ∀ byte ∈ run, 128 ≤ byte.toNat)
    (drop : bytes.drop index = run ++ tail) :
    tokenStop bytes (openQuote.map byteOf) index =
      tokenStop bytes (openQuote.map byteOf) (index + run.length) := by
  induction run generalizing index with
  | nil => rfl
  | cons byte run ih =>
    have high := large byte List.mem_cons_self
    have later : ∀ other ∈ run, 128 ≤ other.toNat :=
      fun other member => large other (List.mem_cons_of_mem _ member)
    rw [tokenStop_step (byteAt_eq drop), onBytes_large _ high, Bool.and_false,
      if_neg Bool.false_ne_true, quoteAfter_large known high, ih later (drop_succ_of_drop drop),
      List.length_cons, Nat.add_assoc, Nat.add_comm 1]

/-- A character of one byte opens and closes quotes as its byte does. -/
theorem quoteAfter_byteOf {openQuote : Option Char} {c : Char}
    (known : ∀ quote ∈ openQuote, IsAscii quote) (ascii : IsAscii c) :
    quoteAfter (openQuote.map byteOf) (byteOf c) =
      (Attribute.quoteAfter openQuote c).map byteOf := by
  cases openQuote with
  | none =>
    have double : byteOf c = byteOf '"' ↔ c = '"' := byteOf_inj ascii (by decide)
    have single : byteOf c = byteOf '\'' ↔ c = '\'' := byteOf_inj ascii (by decide)
    simp only [quoteAfter, Attribute.quoteAfter, Option.map_none, double, single]
    split <;> rfl
  | some quote =>
    have same : byteOf c = byteOf quote ↔ c = quote := byteOf_inj ascii (known quote rfl)
    simp only [quoteAfter, Attribute.quoteAfter, Option.map_some, same]
    split <;> rfl

/-- An open quote is an ASCII character. -/
theorem isAscii_of_quoteAfter {openQuote : Option Char} {c : Char}
    (known : ∀ quote ∈ openQuote, IsAscii quote) :
    ∀ quote ∈ Attribute.quoteAfter openQuote c, IsAscii quote := by
  intro quote member
  cases openQuote with
  | none =>
    rw [Attribute.quoteAfter] at member
    split at member
    next quotes =>
      cases member
      simp only [Bool.or_eq_true, decide_eq_true_iff] at quotes
      rcases quotes with rfl | rfl <;> decide
    next => cases member
  | some open' =>
    rw [Attribute.quoteAfter] at member
    split at member
    next => cases member
    next =>
      cases member
      exact known _ rfl

/-- A character of several bytes opens and closes no quote. -/
theorem quoteAfter_other {openQuote : Option Char} {c : Char}
    (known : ∀ quote ∈ openQuote, IsAscii quote) (other : ¬ IsAscii c) :
    Attribute.quoteAfter openQuote c = openQuote := by
  have differs (d : Char) (small : IsAscii d) : c ≠ d := fun same => other (same ▸ small)
  cases openQuote with
  | none => simp [Attribute.quoteAfter, differs '"' (by decide), differs '\'' (by decide)]
  | some quote => exact if_neg (differs quote (known quote rfl))

/-- A token goes on until a blank outside quotes. -/
theorem splitToken_cons (openQuote : Option Char) (c : Char) (rest : List Char) :
    (Attribute.splitToken openQuote (c :: rest)).1 =
      if openQuote.isNone && isAsciiBlank c then []
      else c :: (Attribute.splitToken (Attribute.quoteAfter openQuote c) rest).1 := by
  rw [Attribute.splitToken]
  split <;> rfl

/-- A token ends among the bytes where it ends in the text. -/
theorem tokenStop_eq {openQuote : Option Char} (known : ∀ quote ∈ openQuote, IsAscii quote)
    (on : On text ⟨index, rest⟩) :
    tokenStop (encode text) (openQuote.map byteOf) index =
      .ok (index + width (Attribute.splitToken openQuote rest).1) := by
  induction rest generalizing index openQuote with
  | nil =>
    rw [tokenStop, if_neg on.not_lt_of_nil]
    rfl
  | cons c rest ih =>
    have drop := on.drop
    dsimp only at drop
    rw [splitToken_cons]
    by_cases ascii : IsAscii c
    · rw [encode_cons_ascii ascii] at drop
      rw [tokenStop_step (byteAt_eq drop), onBytes_byteOf _ ascii, Option.isNone_map,
        quoteAfter_byteOf known ascii]
      by_cases ends : (openQuote.isNone && isAsciiBlank c) = true
      · rw [if_pos ends, if_pos ends]
        rfl
      · have onRest := on.tail
        rw [utf8Size_ascii ascii] at onRest
        rw [if_neg ends, if_neg ends, ih (isAscii_of_quoteAfter known) onRest, width_cons,
          utf8Size_ascii ascii, Nat.add_assoc]
    · have solid : isAsciiBlank c = false :=
        Bool.eq_false_iff.2 fun blank => ascii (isAscii_of_isAsciiBlank blank)
      rw [encode_cons] at drop
      rw [tokenStop_run known (fun _ => le_of_mem_utf8EncodeChar ascii) drop,
        String.length_utf8EncodeChar, ih known on.tail, solid, Bool.and_false,
        if_neg Bool.false_ne_true, quoteAfter_other known ascii, width_cons, Nat.add_assoc]

end

/-- A value loses its quotes when it has them at both ends. -/
theorem unquoted_of_quote {quote : Char} (quotes : quote = '"' ∨ quote = '\'')
    (inner : List Char) :
    unquoted (quote :: inner) =
      .ok (if inner.getLast? = some quote then (inner.dropLast, 1) else (quote :: inner, 0)) := by
  have ascii : IsAscii quote := by rcases quotes with rfl | rfl <;> decide
  have quotes' : (byteOf quote = byteOf '"' || byteOf quote = byteOf '\'' : Bool) = true := by
    rcases quotes with rfl | rfl <;> rfl
  have head : (encode (quote :: inner)).head? = some (byteOf quote) := by
    rw [encode_cons_ascii ascii]
    rfl
  have size : (encode (quote :: inner)).length = 1 + width inner := by
    rw [length_encode, width_cons, utf8Size_ascii ascii]
  rw [unquoted, head, size]
  dsimp only
  rw [quotes', Bool.true_and]
  rcases List.eq_nil_or_concat inner with rfl | ⟨front, last, rfl⟩
  · rfl
  · rw [List.concat_eq_append]
    have onFront : On (quote :: (front ++ [last])) ⟨1, front ++ [last]⟩ := by
      have on := (On.atStart (quote :: (front ++ [last]))).tail
      rwa [utf8Size_ascii ascii] at on
    obtain ⟨byte, member, found⟩ := onFront.skip.exists_lastByte
    have same : (byte == byteOf quote) = (last == quote) := follows_beq ascii last byte member
    have positive := last.utf8Size_pos
    have stop : 1 + width (front ++ [last]) - 1 = 1 + width front + last.utf8Size - 1 := by
      simp [Nat.add_assoc]
    have long : 2 ≤ 1 + width (front ++ [last]) := by
      rw [width_append, width_cons]
      omega
    rw [if_pos (decide_eq_true long), difference_eq (by omega), stop]
    dsimp only [bind, Except.bind]
    rw [found]
    dsimp only
    rw [same, List.getLast?_concat, List.dropLast_concat]
    by_cases closes : last = quote
    · have until' : 1 + width front + last.utf8Size - 1 = 1 + width front := by
        rw [closes, utf8Size_ascii ascii]
        rfl
      rw [if_pos (beq_iff_eq.2 closes), if_pos (congrArg some closes), until', onFront.textIn_eq]
      rfl
    · rw [if_neg (by simpa using closes), if_neg (by simpa using closes)]
      rfl

/-- A value without a quote in front stays as it is. -/
theorem unquoted_of_other {c : Char} (double : c ≠ '"') (single : c ≠ '\'') (inner : List Char) :
    unquoted (c :: inner) = .ok (c :: inner, 0) := by
  obtain ⟨byte, more, member, bytes⟩ := exists_encode_cons c inner
  have head : (encode (c :: inner)).head? = some byte := by
    rw [bytes]
    rfl
  have differs {d : Char} (ascii : IsAscii d) (other : c ≠ d) : byte ≠ byteOf d := by
    have same : (byte == byteOf d) = (c == d) := follows_beq ascii c byte member
    rw [beq_eq_false_iff_ne.2 other] at same
    exact beq_eq_false_iff_ne.1 same
  rw [unquoted, head]
  dsimp only
  rw [decide_eq_false (differs (by decide) double), decide_eq_false (differs (by decide) single)]
  rfl

/-- Reading a value by bytes leaves out the quotes that reading by characters leaves out. -/
theorem unquoted_eq (raw : List Char) : unquoted raw = .ok (Attribute.unquote raw) := by
  cases raw with
  | nil => rfl
  | cons c inner =>
    rw [Attribute.unquote]
    by_cases quotes : c = '"' ∨ c = '\''
    · have quotes' : (c = '"' || c = '\'' : Bool) = true := by simpa using quotes
      rw [unquoted_of_quote quotes, quotes', Bool.true_and]
      simp only [decide_eq_true_iff]
    · rw [not_or] at quotes
      rw [unquoted_of_other quotes.1 quotes.2, decide_eq_false quotes.1, decide_eq_false quotes.2]
      rfl

/-- The bytes of a token spell the attribute that its characters spell. -/
theorem attributeOf?_eq {token : List Char} {offset : Nat}
    (fits : offset + width token ≤ Offset.limit) :
    attributeOf? token offset = .ok (Attribute.spelled? token offset) := by
  have whole := congrArg width (List.takeWhile_append_dropWhile (p := (· ≠ '=')) (l := token))
  rw [width_append] at whole
  unfold attributeOf? Attribute.spelled?
  dsimp only
  split
  next => rfl
  next =>
    rw [toOffset_eq (by omega)]
    dsimp only [bind, Except.bind]
    rw [sum_eq (by omega)]
    dsimp only
    cases parts : token.dropWhile (· ≠ '=') with
    | nil => rfl
    | cons equals raw =>
      have size := Attribute.width_unquote_le raw
      have positive := equals.utf8Size_pos
      rw [parts, width_cons] at whole
      dsimp only
      rw [unquoted_eq]
      dsimp only
      rw [sum_eq (by omega)]
      dsimp only
      rw [sum_eq (by omega), toOffset_eq (by omega)]
      dsimp only
      rw [sum_eq (by omega)]
      rfl

section

variable {text rest : List Char} {base index : Nat}

/-- What the splitter does with one byte between tokens. -/
theorem attributesFrom_step {byte : UInt8} (read : byteAt (encode text) index = .ok byte) :
    attributesFrom text base index =
      if onBytes isAsciiBlank byte then attributesFrom text base (index + 1)
      else do
        let stop ← tokenStop (encode text) none index
        let token ← textIn text index stop
        let found ← attributeOf? token (← sum base (← toOffset index))
        return found.toList ++ (← attributesFrom text base stop) := by
  rw [attributesFrom, if_pos (lt_of_byteAt read)]
  split
  next fault failed =>
    rw [read] at failed
    cases failed
  next other same =>
    rw [read] at same
    cases same
    split
    next => rfl
    next =>
      split
      next fault ends =>
        rw [ends]
        rfl
      next stop ends =>
        rw [ends]
        rfl

/-- Cutting an attribute text by bytes gives its attributes. -/
theorem attributesFrom_eq (fits : base + width text ≤ Offset.limit) (on : On text ⟨index, rest⟩) :
    attributesFrom text base index = .ok ((Attribute.tokens index rest).filterMap
      fun (start, token) => Attribute.spelled? token (base + start)) := by
  fun_induction Attribute.tokens index rest with
  | case1 index =>
    rw [attributesFrom, if_neg on.not_lt_of_nil]
    rfl
  | case2 index c rest blank ih =>
    obtain ⟨byte, member, read⟩ := on.exists_firstByte
    have one := utf8Size_ascii (isAscii_of_isAsciiBlank blank)
    have onRest := on.tail
    rw [one] at onRest ih ⊢
    rw [attributesFrom_step read, follows_isAsciiBlank c byte member, if_pos blank, ih onRest]
  | case3 index c rest solid parts ih =>
    obtain ⟨byte, member, read⟩ := on.exists_firstByte
    have onToken := on
    rw [← Attribute.append_splitToken none (c :: rest)] at onToken
    have size := onToken.skip.offset_add_width
    have known : ∀ quote ∈ (none : Option Char), IsAscii quote := by simp
    have stop := tokenStop_eq known on
    dsimp only at size
    rw [Option.map_none] at stop
    rw [attributesFrom_step read, follows_isAsciiBlank c byte member, if_neg solid, stop]
    dsimp only [bind, Except.bind]
    rw [onToken.textIn_eq, toOffset_eq (by omega)]
    dsimp only
    rw [sum_eq (by omega)]
    dsimp only
    rw [attributeOf?_eq (by omega)]
    dsimp only
    rw [ih onToken.skip]
    dsimp only [parts]
    rw [List.filterMap_cons]
    cases Attribute.spelled? (Attribute.splitToken none (c :: rest)).1 (base + index) <;> rfl

end

end SfcIndex.Bytes
