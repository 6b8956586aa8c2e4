import TradingDesk.Document.Writing
import TradingDesk.Proofs.Numerals
/- Proofs.WrittenText — a document that is written reads as itself.

   Not every tree is written by a text: a numeral may lack digits, and a string may be no
   text. `Document.IsWritten` leaves those out, and everything that is made of numbers,
   texts and records is in it (`isWritten_record`, `isWritten_float`). Such a document is
   read from its own text as it stands (`read?_write`). The proof follows the reader:
   a character of a string is one piece (`pieces_escape`), each value is taken off the
   front of a text up to a comma or a closing bracket (`value_append`), and no level of
   nesting takes more steps than it has characters. -/
namespace TradingDesk

open Decimal

namespace Document

/-! ## Strings -/

theorem hexValue?_hexDigit {n : Nat} (h : n < 16) : hexValue? (hexDigit n) = some n := by
  have hall : ∀ n : Fin 16, hexValue? (hexDigit n) = some n.val := by decide
  exact hall ⟨n, h⟩

theorem hexQuad?_control {n : Nat} (h : n < 32) :
    hexQuad? '0' '0' (hexDigit (n / 16)) (hexDigit (n % 16)) = some n := by
  unfold hexQuad?
  rw [hexValue?_hexDigit (n := n / 16) (by omega), hexValue?_hexDigit (n := n % 16) (by omega)]
  show some (((0 * 16 + 0) * 16 + n / 16) * 16 + n % 16) = some n
  congr 1
  omega

theorem pieces_backslash {c e : Char} (hc : c ≠ 'u') (he : unescape? c = some e)
    (rest : List Char) :
    pieces ('\\' :: c :: rest) = (pieces rest).map fun r => (.char e :: r.1, r.2) := by
  rw [pieces.eq_def]
  split
  · next h => cases h
  · next h => cases h
  · next h => cases h; exact absurd rfl hc
  · next h =>
    cases h
    rw [he]
    cases pieces rest <;> rfl
  · next hslash h => cases h; exact (hslash _ _ rfl rfl).elim

theorem pieces_unit {a b c d : Char} {n : Nat} (h : hexQuad? a b c d = some n) (rest : List Char) :
    pieces ('\\' :: 'u' :: a :: b :: c :: d :: rest) =
      (pieces rest).map fun r => (.unit n :: r.1, r.2) := by
  rw [pieces, h]
  cases pieces rest <;> rfl

theorem pieces_char {c : Char} (hquote : c ≠ '"') (hslash : c ≠ '\\') (hcontrol : 32 ≤ c.toNat)
    (rest : List Char) :
    pieces (c :: rest) = (pieces rest).map fun r => (.char c :: r.1, r.2) := by
  rw [pieces.eq_def]
  split
  · next h => cases h
  · next h => cases h; exact absurd rfl hquote
  · next h => cases h; exact absurd rfl hslash
  · next h => cases h; exact absurd rfl hslash
  · next h =>
    cases h
    rw [if_neg (by simp only [not_or]; exact ⟨by omega, hslash⟩)]

/-- A character is written as itself, as a backslash and a letter that stands for it, or, among
the control characters, by its number. -/
theorem escape_cases (c : Char) :
    (∃ e, escape c = ['\\', e] ∧ e ≠ 'u' ∧ unescape? e = some c) ∨
      (c.toNat < 32 ∧
        escape c = ['\\', 'u', '0', '0', hexDigit (c.toNat / 16), hexDigit (c.toNat % 16)]) ∨
      (escape c = [c] ∧ c ≠ '"' ∧ c ≠ '\\' ∧ 32 ≤ c.toNat) := by
  have hof : ∀ {n}, c.toNat = n → c = Char.ofNat n := fun h => by rw [← h, Char.ofNat_toNat]
  unfold escape
  iterate 5
    split
    · next h => exact .inl ⟨_, rfl, by decide, by rw [h]; rfl⟩
  iterate 2
    split
    · next h => exact .inl ⟨_, rfl, by decide, by rw [hof h]; rfl⟩
  split
  · next h => exact .inr (.inl ⟨h, rfl⟩)
  · next hquote hslash _ _ _ _ _ hcontrol => exact .inr (.inr ⟨rfl, hquote, hslash, by omega⟩)

/-- A character is read as one piece, which stands for it. -/
theorem pieces_escape (c : Char) (rest : List Char) :
    ∃ p, (p = .char c ∨ c.toNat < 32 ∧ p = .unit c.toNat) ∧
      pieces (escape c ++ rest) = (pieces rest).map fun r => (p :: r.1, r.2) := by
  rcases escape_cases c with ⟨e, h, he, hc⟩ | ⟨hcontrol, h⟩ | ⟨h, hquote, hslash, hcontrol⟩
  · exact ⟨.char c, .inl rfl, by rw [h]; exact pieces_backslash he hc rest⟩
  · refine ⟨.unit c.toNat, .inr ⟨hcontrol, rfl⟩, ?_⟩
    rw [h]
    exact pieces_unit (hexQuad?_control hcontrol) rest
  · exact ⟨.char c, .inl rfl, by rw [h]; exact pieces_char hquote hslash hcontrol rest⟩

theorem joinPieces_unit {n : Nat} (h : n < 32) (ps : List Piece) :
    joinPieces (.unit n :: ps) = (joinPieces ps).map (Char.ofNat n :: ·) := by
  have hhigh : isHighHalf n = false := by
    rw [isHighHalf, decide_eq_false (by omega), Bool.false_and]
  have hlow : isLowHalf n = false := by
    rw [isLowHalf, decide_eq_false (by omega), Bool.false_and]
  cases ps with
  | nil => simp [joinPieces, hhigh, hlow]
  | cons p ps =>
    cases p <;> simp [joinPieces, hhigh, hlow]

theorem pieces_flatMap_escape (cs rest : List Char) :
    ∃ ps, pieces (cs.flatMap escape ++ '"' :: rest) = some (ps, rest) ∧
      joinPieces ps = some cs := by
  induction cs with
  | nil => exact ⟨[], rfl, rfl⟩
  | cons c cs ih =>
    obtain ⟨ps, hps, hjoin⟩ := ih
    obtain ⟨p, hp, hpiece⟩ := pieces_escape c (cs.flatMap escape ++ '"' :: rest)
    refine ⟨p :: ps, ?_, ?_⟩
    · rw [List.flatMap_cons, List.append_assoc, hpiece, hps]
      rfl
    · rcases hp with rfl | ⟨hcontrol, rfl⟩
      · rw [joinPieces, hjoin]
        rfl
      · rw [joinPieces_unit hcontrol, hjoin, Char.ofNat_toNat]
        rfl

/-- A string is read off the front of a text after its opening quote. -/
theorem stringBody_append (s : String) (rest : List Char) :
    stringBody (s.toList.flatMap escape ++ '"' :: rest) = some (some s, rest) := by
  obtain ⟨ps, hps, hjoin⟩ := pieces_flatMap_escape s.toList rest
  rw [stringBody, hps]
  show some ((joinPieces ps).map String.ofList, rest) = _
  rw [hjoin, Option.map_some, String.ofList_toList]

/-! ## Documents that a text can write -/

mutual

/-- A document that a text can write: its numerals are well formed, and its strings and keys are
text. -/
def IsWritten : Document → Prop
  | .null => True
  | .bool _ => True
  | .number n => n.WellFormed
  | .string s => s.isSome = true
  | .array items => AreWritten items
  | .object entries => EntriesWritten entries

def AreWritten : List Document → Prop
  | [] => True
  | d :: rest => IsWritten d ∧ AreWritten rest

def EntriesWritten : List (Option String × Document) → Prop
  | [] => True
  | (key, d) :: rest => key.isSome = true ∧ IsWritten d ∧ EntriesWritten rest

end

theorem areWritten_iff {items : List Document} : AreWritten items ↔ ∀ d ∈ items, d.IsWritten := by
  induction items with
  | nil => simp [AreWritten]
  | cons d items ih => rw [AreWritten, ih, List.forall_mem_cons]

theorem isWritten_record {fields : List (String × Document)} :
    (record fields).IsWritten ↔ ∀ f ∈ fields, f.2.IsWritten := by
  rw [record, IsWritten]
  induction fields with
  | nil => simp [EntriesWritten]
  | cons f fields ih =>
    rw [List.map_cons, EntriesWritten, ih, List.forall_mem_cons]
    exact and_iff_right rfl

theorem isWritten_text (s : String) : (text s).IsWritten := by
  rw [text, IsWritten, Option.isSome_some]

theorem isWritten_bool (b : Bool) : (bool b).IsWritten := by
  rw [IsWritten]
  trivial

theorem isWritten_natural (n : Nat) : (natural n).IsWritten := by
  rw [natural, IsWritten]
  exact Numeral.wellFormed_ofNat n

theorem isWritten_float (x : Float) : (float x).IsWritten := by
  unfold float
  split
  · rw [IsWritten]
    exact Layout.wellFormed_numeral _ _ _ _
  · rw [IsWritten]; trivial
  · rw [IsWritten]; trivial

theorem isWritten_list {β : Type} {write : β → Document} (h : ∀ b, (write b).IsWritten)
    (bs : List β) : (list write bs).IsWritten := by
  rw [list, IsWritten, areWritten_iff]
  exact List.forall_mem_map.mpr fun b _ => h b

theorem isWritten_option {β : Type} {write : β → Document} (h : ∀ b, (write b).IsWritten)
    (b : Option β) : (option write b).IsWritten := by
  cases b with
  | none => rw [option, IsWritten]; trivial
  | some b => exact h b

/-! ## Values -/

/-- What follows a written value in a text: a comma or a closing bracket, or nothing. -/
def EndsValue (rest : List Char) : Prop := ∀ c ∈ rest.head?, c = ',' ∨ c = ']' ∨ c = '\x7d'

theorem EndsValue.endsNumber {rest : List Char} (h : EndsValue rest) : EndsNumber rest := by
  intro c hc
  rcases h c hc with rfl | rfl | rfl <;> decide

theorem head_numeral {n : Numeral} (h : n.WellFormed) :
    ∃ c cs, n.chars = c :: cs ∧ (c = '-' ∨ c.isDigit = true) := by
  obtain ⟨c, cs, hhead⟩ := List.exists_cons_of_ne_nil h.whole.ne_nil
  rw [chars_eq]
  cases n.negative with
  | true => exact ⟨'-', _, rfl, .inl rfl⟩
  | false =>
    rw [hhead]
    exact ⟨c, _, rfl, .inr (h.whole.digit c (by rw [hhead]; exact List.mem_cons_self))⟩

theorem not_isSpace_of_isDigit {c : Char} (h : c.isDigit = true) : isSpace c = false := by
  rw [Bool.eq_false_iff]
  intro hspace
  simp only [isSpace, Bool.or_eq_true, beq_iff_eq] at hspace
  rcases hspace with ((rfl | rfl) | rfl) | rfl <;> cases h

/-- A value starts with no blank and no closing bracket. -/
theorem head_chars {d : Document} (h : d.IsWritten) :
    ∃ c cs, d.chars = c :: cs ∧ isSpace c = false ∧ c ≠ ']' := by
  cases d with
  | null => exact ⟨_, _, rfl, rfl, by decide⟩
  | bool b => cases b <;> exact ⟨_, _, rfl, rfl, by decide⟩
  | number n =>
    obtain ⟨c, cs, hchars, hc⟩ := head_numeral (show n.WellFormed by rwa [IsWritten] at h)
    refine ⟨c, cs, hchars, ?_⟩
    rcases hc with rfl | hc
    · exact ⟨rfl, by decide⟩
    · exact ⟨not_isSpace_of_isDigit hc, fun heq => by rw [heq] at hc; cases hc⟩
  | string s => exact ⟨_, _, rfl, rfl, by decide⟩
  | array items => exact ⟨_, _, rfl, rfl, by decide⟩
  | object entries => exact ⟨_, _, rfl, rfl, by decide⟩

theorem skipSpace_cons {c : Char} (h : isSpace c = false) (cs : List Char) :
    skipSpace (c :: cs) = c :: cs := by
  rw [skipSpace, List.dropWhile_cons_of_neg (by simp [h])]

theorem value_number {n : Numeral} (h : n.WellFormed) {rest : List Char} (hrest : EndsNumber rest)
    (fuel : Nat) : value (fuel + 1) (n.chars ++ rest) = some (.number n, rest) := by
  obtain ⟨c, cs, hchars, hc⟩ := head_numeral h
  have hnumeral := numeral_append h hrest
  have hspace : isSpace c = false := by
    rcases hc with rfl | hc
    · rfl
    · exact not_isSpace_of_isDigit hc
  rw [hchars, List.cons_append] at hnumeral ⊢
  generalize cs ++ rest = cs' at hnumeral
  unfold value
  rw [skipSpace_cons hspace]
  -- No other value begins with a sign or a digit.
  split
  case h_7 =>
    rw [hnumeral]
    rfl
  all_goals
    next heq =>
    cases heq
    rcases hc with hc | hc <;> cases hc

section

variable {fuel : Nat} {d : Document} {cs rest : List Char}

theorem value_array {ds : List Document} {c : Char} (hspace : isSpace c = false) (hc : c ≠ ']')
    (h : items fuel (c :: cs) = some (ds, rest)) :
    value (fuel + 1) ('[' :: c :: cs) = some (.array ds, rest) := by
  simp only [value, skipSpace_cons (c := '[') rfl, skipSpace_cons hspace]
  split
  · next heq => cases heq; exact absurd rfl hc
  · rw [h]
    rfl

theorem items_last (h : value fuel cs = some (d, ']' :: rest)) :
    items (fuel + 1) cs = some ([d], rest) := by
  unfold items
  rw [h]
  rfl

theorem items_comma {ds : List Document} {cs' : List Char}
    (h : value fuel cs = some (d, ',' :: cs')) (hds : items fuel cs' = some (ds, rest)) :
    items (fuel + 1) cs = some (d :: ds, rest) := by
  unfold items
  rw [h]
  show (items fuel cs').map _ = _
  rw [hds]
  rfl

theorem value_object {es : List (Option String × Document)}
    (h : entries fuel ('"' :: cs) = some (es, rest)) :
    value (fuel + 1) ('\x7b' :: '"' :: cs) = some (.object es, rest) := by
  show (entries fuel ('"' :: cs)).map _ = _
  rw [h]
  rfl

theorem quoted_append (s : String) (cs : List Char) :
    quoted (some s) ++ cs = '"' :: (s.toList.flatMap escape ++ '"' :: cs) := by
  simp [quoted]

theorem entries_last {key : String} (h : value fuel cs = some (d, '\x7d' :: rest)) :
    entries (fuel + 1) (quoted (some key) ++ ':' :: cs) = some ([(some key, d)], rest) := by
  rw [quoted_append]
  simp only [entries, skipSpace_cons (c := '"') rfl, stringBody_append,
    skipSpace_cons (c := ':') rfl, h, skipSpace_cons (c := '\x7d') rfl]

theorem entries_comma {key : String} {es : List (Option String × Document)} {cs' : List Char}
    (h : value fuel cs = some (d, ',' :: cs')) (hes : entries fuel cs' = some (es, rest)) :
    entries (fuel + 1) (quoted (some key) ++ ':' :: cs) = some ((some key, d) :: es, rest) := by
  rw [quoted_append]
  simp only [entries, skipSpace_cons (c := '"') rfl, stringBody_append,
    skipSpace_cons (c := ':') rfl, h, skipSpace_cons (c := ',') rfl, hes, Option.map_some]

end

theorem commaSeparated_cons (cs : List Char) (rest : List (List Char)) :
    ∃ tail, commaSeparated (cs :: rest) = cs ++ tail := by
  cases rest with
  | nil => exact ⟨[], (List.append_nil cs).symm⟩
  | cons cs' rest => exact ⟨_, rfl⟩

theorem commaSeparated_cons_cons (cs cs' : List Char) (rest : List (List Char)) :
    commaSeparated (cs :: cs' :: rest) = cs ++ ',' :: commaSeparated (cs' :: rest) := rfl

mutual

/-- A value is read off the front of a text as it was written. -/
theorem value_append : ∀ (d : Document) (fuel : Nat) (rest : List Char), d.IsWritten →
    2 * d.chars.length ≤ fuel → EndsValue rest → value fuel (d.chars ++ rest) = some (d, rest)
  -- Two steps for each character are enough, one for a value and one for the list it stands in.
  | d, 0, rest, hd, hfuel, _ => by
    obtain ⟨c, cs, hchars, -⟩ := head_chars hd
    rw [hchars, List.length_cons] at hfuel
    omega
  | .null, fuel + 1, rest, _, _, _ => rfl
  | .bool b, fuel + 1, rest, _, _, _ => by cases b <;> rfl
  | .number n, fuel + 1, rest, hd, _, hrest => by
    rw [IsWritten] at hd
    exact value_number hd hrest.endsNumber fuel
  | .string s, fuel + 1, rest, hd, _, _ => by
    rw [IsWritten] at hd
    obtain ⟨s, rfl⟩ := Option.isSome_iff_exists.mp hd
    rw [chars, quoted_append]
    show (stringBody _).map _ = _
    rw [stringBody_append]
    rfl
  | .array [], fuel + 1, rest, _, _, _ => rfl
  | .array (d :: ds), fuel + 1, rest, hd, hfuel, _ => by
    rw [IsWritten] at hd
    simp only [chars, List.length_cons, List.length_append] at hfuel
    have hitems := items_append d ds fuel rest hd (by omega)
    obtain ⟨c, cs, hchars, hspace, hc⟩ := head_chars hd.1
    obtain ⟨tail, htail⟩ := commaSeparated_cons d.chars (itemChars ds)
    rw [itemChars, htail, hchars] at hitems
    have h := value_array hspace hc hitems
    rw [chars, itemChars, htail, hchars, List.cons_append, List.append_assoc]
    exact h
  | .object [], fuel + 1, rest, _, _, _ => rfl
  | .object ((key, d) :: es), fuel + 1, rest, hd, hfuel, _ => by
    rw [IsWritten] at hd
    simp only [chars, List.length_cons, List.length_append] at hfuel
    have hentries := entries_append key d es fuel rest hd (by omega)
    obtain ⟨tail, htail⟩ := commaSeparated_cons (quoted key ++ ':' :: d.chars) (entryChars es)
    rw [entryChars, htail] at hentries
    have h := value_object hentries
    rw [chars, entryChars, htail, List.cons_append, List.append_assoc]
    exact h

theorem items_append : ∀ (d : Document) (ds : List Document) (fuel : Nat) (rest : List Char),
    AreWritten (d :: ds) → 2 * (commaSeparated (itemChars (d :: ds))).length + 1 ≤ fuel →
    items fuel (commaSeparated (itemChars (d :: ds)) ++ ']' :: rest) = some (d :: ds, rest)
  | d, [], fuel + 1, rest, hds, hfuel => by
    refine items_last (value_append d fuel _ hds.1 ?_ ?_)
    · simp only [itemChars, commaSeparated] at hfuel
      omega
    · exact fun c hc => .inr (.inl (Option.some.inj hc).symm)
  | d, d' :: ds, fuel + 1, rest, hds, hfuel => by
    simp only [itemChars, commaSeparated, List.length_append, List.length_cons] at hfuel
    have hd := value_append d fuel (',' :: (commaSeparated (itemChars (d' :: ds)) ++ ']' :: rest))
      hds.1 (by omega) fun c hc => .inl (Option.some.inj hc).symm
    have hds := items_append d' ds fuel rest hds.2 (by simp only [itemChars]; omega)
    rw [itemChars, itemChars, commaSeparated_cons_cons, List.append_assoc]
    exact items_comma hd hds

theorem entries_append : ∀ (key : Option String) (d : Document)
    (es : List (Option String × Document)) (fuel : Nat) (rest : List Char),
    EntriesWritten ((key, d) :: es) →
    2 * (commaSeparated (entryChars ((key, d) :: es))).length + 1 ≤ fuel →
    entries fuel (commaSeparated (entryChars ((key, d) :: es)) ++ '\x7d' :: rest) =
      some ((key, d) :: es, rest)
  | some key, d, [], fuel + 1, rest, hes, hfuel => by
    simp only [entryChars, commaSeparated, List.length_append, List.length_cons] at hfuel
    have hd := value_append d fuel ('\x7d' :: rest) hes.2.1 (by omega)
      fun c hc => .inr (.inr (Option.some.inj hc).symm)
    rw [entryChars, entryChars, commaSeparated, List.append_assoc]
    exact entries_last hd
  | some key, d, (key', d') :: es, fuel + 1, rest, hes, hfuel => by
    simp only [entryChars, commaSeparated, List.length_append, List.length_cons] at hfuel
    have hd := value_append d fuel
      (',' :: (commaSeparated (entryChars ((key', d') :: es)) ++ '\x7d' :: rest)) hes.2.1
      (by omega) fun c hc => .inl (Option.some.inj hc).symm
    have hes := entries_append key' d' es fuel rest hes.2.2
      (by simp only [entryChars]; omega)
    rw [entryChars, entryChars, commaSeparated_cons_cons, List.append_assoc, List.append_assoc]
    exact entries_comma hd hes
  | none, _, _, _, _, hes, _ => by cases hes.1

end

/-- A document that a text can write is read from the text that writes it. -/
theorem read?_write {d : Document} (h : d.IsWritten) : read? d.write = some d := by
  have hvalue := value_append d (2 * d.chars.length + 2) [] h (by omega) (by simp [EndsValue])
  rw [List.append_nil] at hvalue
  rw [read?, write, String.toList_ofList, ofChars?, hvalue]
  rfl

end Document

end TradingDesk
