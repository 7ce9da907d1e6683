import CommandGrammar.Proofs.Json.Numerals
import CommandGrammar.Proofs.Json.Strings

/-!
# Texts within texts

A text that is read as a value is read as the same value inside a list or an object. What is said
here of a text holds of it behind any blanks, in front of whatever does not go on with a number, and
for any number of steps from two for each character on. Every form of a value passes it on from its
parts.
-/

namespace CommandGrammar

/-- The numeral of an integer. -/
def Numeral.ofInt : Int → Numeral
  | .ofNat n => .natural n
  | .negSucc n => .negative (n + 1)

namespace Json

/-- Blanks between the parts of a text. -/
def Blank (gap : List Char) : Prop := ∀ c ∈ gap, Reader.isSpace c = true

theorem blank_nil : Blank [] := by
  intro c hc
  cases hc

theorem skipSpace_append {gap : List Char} (h : Blank gap) (text : List Char) :
    skipSpace (gap ++ text) = skipSpace text :=
  List.dropWhile_append_of_pos h

theorem skipSpace_cons {c : Char} (hc : Reader.isSpace c = false) (text : List Char) :
    skipSpace (c :: text) = c :: text :=
  List.dropWhile_cons_of_neg (by simp [hc])

theorem blank_of_skipSpace_eq_nil {text : List Char} (h : skipSpace text = []) : Blank text :=
  List.dropWhile_eq_nil_iff.mp h

theorem endsNumeral_append {gap rest : List Char} (hgap : Blank gap) (hrest : EndsNumeral rest) :
    EndsNumeral (gap ++ rest) := by
  cases gap with
  | nil => exact hrest
  | cons c gap =>
      intro d more heq
      obtain ⟨rfl, -⟩ := List.cons.inj heq
      have hspace := hgap c List.mem_cons_self
      simp only [Reader.isSpace, Bool.or_eq_true, beq_iff_eq] at hspace
      rcases hspace with ((rfl | rfl) | rfl) | rfl <;> decide

theorem endsNumeral_append_cons {gap : List Char} (hgap : Blank gap) {c : Char}
    (hc : c = ',' ∨ c = ']' ∨ c = '\x7d') (rest : List Char) : EndsNumeral (gap ++ c :: rest) := by
  refine endsNumeral_append hgap fun d more heq => ?_
  obtain ⟨rfl, -⟩ := List.cons.inj heq
  rcases hc with rfl | rfl | rfl <;> decide

/-- The text is read as the value; blanks at its end may be left over. -/
def Reads (text : List Char) (value : Reading) : Prop :=
  ∀ ⦃gap rest : List Char⦄ ⦃fuel : Nat⦄, Blank gap → EndsNumeral rest → 2 * text.length ≤ fuel →
    ∃ left, Blank left ∧ readValue fuel (gap ++ text ++ rest) = (value, some (left ++ rest))

/-- Behind a first item, the text goes on with these items up to the closing bracket. -/
def ReadsItems (more : List Char) (items : List Reading) : Prop :=
  ∀ ⦃gap first rest : List Char⦄ ⦃item : Reading⦄ ⦃fuel : Nat⦄, Blank gap → Reads first item →
    2 * (first.length + more.length) < fuel →
    readItems fuel (gap ++ first ++ more ++ rest) = (item :: items, none, some rest)

/-- Behind a first member, the text goes on with these members up to the closing brace. -/
def ReadsMembers (more : List Char) (members : List (Except Fault String × Reading)) : Prop :=
  ∀ ⦃gap gap' first rest : List Char⦄ ⦃name : String⦄ ⦃value : Reading⦄ ⦃fuel : Nat⦄,
    Blank gap → Blank gap' → Reads first value → 2 * (first.length + more.length) < fuel →
    readMembers fuel (gap ++ quote name ++ ':' :: gap' ++ first ++ more ++ rest)
      = ((.ok name, value) :: members, none, some rest)

theorem Reads.of_skipSpace {text : List Char} {value : Reading} (h : Reads (skipSpace text) value) :
    Reads text value := by
  intro gap rest fuel hgap hrest hfuel
  have hsplit : text.takeWhile Reader.isSpace ++ skipSpace text = text := List.takeWhile_append_dropWhile
  have hlength := congrArg List.length hsplit
  rw [List.length_append] at hlength
  have hblank : Blank (gap ++ text.takeWhile Reader.isSpace) := by
    intro c hc
    rcases List.mem_append.mp hc with hc | hc
    · exact hgap c hc
    · exact List.mem_takeWhile_imp hc
  obtain ⟨left, hleft, hread⟩ := h hblank hrest (show 2 * (skipSpace text).length ≤ fuel by omega)
  refine ⟨left, hleft, ?_⟩
  rwa [List.append_assoc gap, hsplit] at hread

theorem Reads.append_blank {text gap : List Char} {value : Reading} (h : Reads text value)
    (hgap : Blank gap) : Reads (text ++ gap) value := by
  intro outer rest fuel houter hrest hfuel
  rw [List.length_append] at hfuel
  have hends := endsNumeral_append hgap hrest
  obtain ⟨left, hleft, hread⟩ := h houter hends (show 2 * text.length ≤ fuel by omega)
  have hblank : Blank (left ++ gap) := by
    intro c hc
    exact (List.mem_append.mp hc).elim (hleft c) (hgap c)
  refine ⟨left ++ gap, hblank, ?_⟩
  rw [← List.append_assoc] at hread ⊢
  rw [hread, List.append_assoc]

theorem read_of_reads {text : List Char} {value : Reading} (h : Reads text value) :
    read text = (value, none) := by
  obtain ⟨left, hleft, hread⟩ := h blank_nil endsNumeral_nil (show 2 * text.length ≤ 2 * text.length + 2 by omega)
  rw [List.nil_append, List.append_nil, List.append_nil] at hread
  have hend : skipSpace left = [] := by
    rw [← List.append_nil left, skipSpace_append hleft]
    rfl
  simp only [read, hread, hend]
  rfl

/-! ### The first character of a value -/

section FirstCharacter

variable {gap : List Char} (hgap : Blank gap) (fuel : Nat) (text : List Char)
include hgap

theorem readValue_minus :
    readValue (fuel + 1) (gap ++ '-' :: text) = readValue.number (scanNumeral true text) := by
  rw [readValue, skipSpace_append hgap, skipSpace_cons rfl]
  rfl

theorem readValue_digit {c : Char} (hc : c.isDigit = true) :
    readValue (fuel + 1) (gap ++ c :: text) = readValue.number (scanNumeral false (c :: text)) := by
  have hother : ∀ d, d.isDigit = false → c ≠ d := by
    rintro d hd rfl
    rw [hc] at hd
    cases hd
  have hspace : Reader.isSpace c = false := by
    simp [Reader.isSpace, hother ' ' rfl, hother '\t' rfl, hother '\n' rfl, hother '\r' rfl]
  rw [readValue, skipSpace_append hgap, skipSpace_cons hspace]
  simp only [if_neg (hother 'n' rfl), if_neg (hother 't' rfl), if_neg (hother 'f' rfl),
    if_neg (hother '-' rfl), if_pos hc]

theorem readValue_quote :
    readValue (fuel + 1) (gap ++ '"' :: text) =
      match scanString text with
      | .ok (value, rest) => (.string value, some rest)
      | .error b => cut b := by
  rw [readValue, skipSpace_append hgap, skipSpace_cons rfl]
  rfl

theorem readValue_bracket :
    readValue (fuel + 1) (gap ++ '[' :: text) =
      match skipSpace text with
      | ']' :: rest => (.array [] none, some rest)
      | [] => (.array [] (some (.of .cutShort)), none)
      | _ => (.array (readItems fuel text).1 (readItems fuel text).2.1, (readItems fuel text).2.2) := by
  rw [readValue, skipSpace_append hgap, skipSpace_cons rfl]
  rfl

theorem readValue_brace :
    readValue (fuel + 1) (gap ++ '\x7b' :: text) =
      match skipSpace text with
      | '\x7d' :: rest => (.object [] none, some rest)
      | _ => (.object (readMembers fuel text).1 (readMembers fuel text).2.1,
          (readMembers fuel text).2.2) := by
  rw [readValue, skipSpace_append hgap, skipSpace_cons rfl]
  rfl

end FirstCharacter

/-! ### Values without parts -/

theorem reads_bool (value : Bool) : Reads (Data.bool value).compact (.bool value) := by
  intro gap rest fuel hgap _ hfuel
  refine ⟨[], blank_nil, ?_⟩
  cases value <;> cases fuel with
  | zero => simp [Data.compact] at hfuel
  | succ fuel =>
      rw [readValue, List.append_assoc, skipSpace_append hgap]
      rfl

theorem reads_quote (text : String) : Reads (quote text) (.string (.ok text)) := by
  intro gap rest fuel hgap _ hfuel
  refine ⟨[], blank_nil, ?_⟩
  cases fuel with
  | zero => simp [quote] at hfuel
  | succ fuel =>
      rw [List.append_assoc, quote, List.cons_append, List.cons_append, List.append_assoc,
        readValue_quote hgap]
      simp only [List.singleton_append, scanString_flatMap_escapeChar, List.nil_append]

theorem reads_of_scanNumeral {negative : Bool} {text left : List Char} {numeral : NumeralText}
    (hscan : scanNumeral negative text = .ok (numeral, left)) (hleft : Blank left) :
    Reads ((if negative then ['-'] else []) ++ text) (.number numeral.value) := by
  intro gap rest fuel hgap hrest hfuel
  refine ⟨left, hleft, ?_⟩
  have hwhole := scanNumeral_append hrest hscan
  obtain ⟨c, more, rfl, hc⟩ := exists_eq_cons_of_scanNumeral hscan
  cases fuel with
  | zero => simp at hfuel
  | succ fuel =>
      rw [List.append_assoc]
      have hnumber : readValue.number (scanNumeral negative (c :: more ++ rest))
          = (.number numeral.value, some (left ++ rest)) := by
        rw [hwhole, readValue.number]
      cases negative with
      | true => exact (readValue_minus hgap fuel _).trans hnumber
      | false => exact (readValue_digit hgap fuel _ hc).trans hnumber

theorem reads_ofInt {n : Int} (hlower : -(twoTo 63 : Int) ≤ n) (hupper : n ≤ greatestNatural) :
    Reads (Digits.ofInt n) (.number (.ok (Numeral.ofInt n))) := by
  cases n with
  | ofNat n =>
      have hreads := reads_of_scanNumeral (scanNumeral_ofNat false n) blank_nil
      rwa [value_natural (Int.ofNat_le.mp hupper)] at hreads
  | negSucc n =>
      have hreads := reads_of_scanNumeral (scanNumeral_ofNat true (n + 1)) blank_nil
      rwa [value_negative (Nat.succ_pos n) (by omega)] at hreads

theorem exists_eq_ok_of_number {scanned : Except Fault (NumeralText × List Char)}
    {n : Except Fault Numeral} {rest : Option (List Char)}
    (h : readValue.number scanned = (.number n, rest)) :
    ∃ numeral left, scanned = .ok (numeral, left) ∧ numeral.value = n ∧ rest = some left := by
  cases scanned with
  | error fault => cases h
  | ok scanned =>
      cases h
      exact ⟨scanned.1, scanned.2, rfl, rfl, rfl⟩

theorem keyword_ne_number {value : Reading} {e : Except Fault (List Char)} {n : Except Fault Numeral}
    {rest : Option (List Char)} (hvalue : value ≠ .number n) :
    readValue.keyword value e ≠ (.number n, rest) := by
  intro h
  cases e with
  | error fault => cases h
  | ok more => exact hvalue (congrArg Prod.fst h)

/-- Where a number is read, it stands behind blanks and perhaps a sign. -/
theorem exists_scanNumeral_of_readValue {text : List Char} {n : Except Fault Numeral} {fuel : Nat}
    {rest : Option (List Char)} (h : readValue fuel text = (.number n, rest)) :
    ∃ negative body numeral left, skipSpace text = (if negative then ['-'] else []) ++ body
      ∧ scanNumeral negative body = .ok (numeral, left) ∧ numeral.value = n ∧ rest = some left := by
  cases fuel with
  | zero => cases h
  | succ fuel =>
      rw [readValue] at h
      split at h
      · cases h
      · rename_i c body hskip
        split_ifs at h with hn ht hf hminus hdigit hquote hbracket hbrace
        · exact absurd h (keyword_ne_number nofun)
        · exact absurd h (keyword_ne_number nofun)
        · exact absurd h (keyword_ne_number nofun)
        · obtain ⟨numeral, left, hscan, hrest⟩ := exists_eq_ok_of_number h
          exact ⟨true, body, numeral, left, hminus ▸ hskip, hscan, hrest⟩
        · obtain ⟨numeral, left, hscan, hrest⟩ := exists_eq_ok_of_number h
          exact ⟨false, c :: body, numeral, left, hskip, hscan, hrest⟩
        -- strings, lists, objects and breaks
        all_goals
          try split at h
          all_goals cases h

/-- A whole text that is read as a number is read as that number wherever it stands. -/
theorem reads_of_read_eq_number {text : List Char} {n : Except Fault Numeral}
    (h : read text = (.number n, none)) : Reads text (.number n) := by
  cases hread : readValue (2 * text.length + 2) text with
  | mk value rest =>
      rw [read, hread] at h
      cases rest with
      | none =>
          cases h
          obtain ⟨_, _, _, left, _, _, _, hnone⟩ := exists_scanNumeral_of_readValue hread
          cases hnone
      | some rest =>
          obtain rfl : value = .number n := congrArg Prod.fst h
          obtain ⟨negative, body, numeral, left, hskip, hscan, rfl, hleft⟩ :=
            exists_scanNumeral_of_readValue hread
          have hend : skipSpace rest = [] := by
            have hnone := congrArg Prod.snd h
            simp only at hnone
            split_ifs at hnone with hempty
            exact List.isEmpty_iff.mp hempty
          have hblank : Blank left := Option.some.inj hleft ▸ blank_of_skipSpace_eq_nil hend
          apply Reads.of_skipSpace
          rw [hskip]
          exact reads_of_scanNumeral hscan hblank

/-! ### Lists -/

theorem reads_emptyArray : Reads ['[', ']'] (.array [] none) := by
  intro gap rest fuel hgap _ hfuel
  refine ⟨[], blank_nil, ?_⟩
  cases fuel with
  | zero => simp at hfuel
  | succ fuel =>
      rw [List.append_assoc]
      exact readValue_bracket hgap fuel _

theorem reads_emptyObject : Reads ['\x7b', '\x7d'] (.object [] none) := by
  intro gap rest fuel hgap _ hfuel
  refine ⟨[], blank_nil, ?_⟩
  cases fuel with
  | zero => simp at hfuel
  | succ fuel =>
      rw [List.append_assoc]
      exact readValue_brace hgap fuel _

theorem skipSpace_append_of_cons {text more : List Char} {c : Char} (h : skipSpace text = c :: more)
    (rest : List Char) : skipSpace (text ++ rest) = c :: (more ++ rest) := by
  rw [skipSpace] at h ⊢
  rw [List.dropWhile_append, h]
  rfl

/-- A value does not start with a closing bracket. -/
theorem Reads.skipSpace_eq_cons {text : List Char} {value : Reading} (h : Reads text value) :
    ∃ c more, skipSpace text = c :: more ∧ c ≠ ']' := by
  obtain ⟨left, -, hread⟩ := h blank_nil endsNumeral_nil (show 2 * text.length ≤ 2 * text.length + 1 by omega)
  rw [List.nil_append, List.append_nil, readValue] at hread
  cases hskip : skipSpace text with
  | nil =>
      rw [hskip] at hread
      cases hread
  | cons c more =>
      refine ⟨c, more, rfl, ?_⟩
      rintro rfl
      rw [hskip] at hread
      cases hread

theorem reads_array {gap first more : List Char} {item : Reading} {items : List Reading}
    (hgap : Blank gap) (hfirst : Reads first item) (hmore : ReadsItems more items) :
    Reads ('[' :: gap ++ first ++ more) (.array (item :: items) none) := by
  intro outer rest fuel houter _ hfuel
  refine ⟨[], blank_nil, ?_⟩
  cases fuel with
  | zero => simp at hfuel
  | succ fuel =>
      simp only [List.length_append, List.length_cons] at hfuel
      have hitems := @hmore gap first rest _ _ hgap hfirst
        (show 2 * (first.length + more.length) < fuel by omega)
      -- what is behind the bracket is not taken for the end of an empty list
      obtain ⟨c, behind, hskip, hc⟩ := hfirst.skipSpace_eq_cons
      have hstart := skipSpace_append_of_cons hskip (more ++ rest)
      simp only [List.append_assoc, List.cons_append] at hitems ⊢
      rw [readValue_bracket houter, skipSpace_append hgap, hstart, hitems]
      split
      · rename_i heq
        exact absurd (List.cons.inj heq).1 hc
      · rename_i heq
        cases heq
      · rfl

theorem readsItems_close {gap : List Char} (hgap : Blank gap) : ReadsItems (gap ++ [']']) [] := by
  intro gap' first rest item fuel hgap' hfirst hfuel
  cases fuel with
  | zero => omega
  | succ fuel =>
      have hends : EndsNumeral (gap ++ ']' :: rest) := endsNumeral_append_cons hgap (by simp) rest
      obtain ⟨left, hleft, hread⟩ := hfirst hgap' hends (show 2 * first.length ≤ fuel by omega)
      simp only [List.append_assoc, List.cons_append, List.nil_append] at hread ⊢
      rw [readItems, hread]
      simp only [skipSpace_append hleft, skipSpace_append hgap, skipSpace_cons (c := ']') rfl]

theorem readsItems_next {gap next more : List Char} {item : Reading} {items : List Reading}
    (hgap : Blank gap) (hnext : Reads next item) (hmore : ReadsItems more items) :
    ReadsItems (',' :: gap ++ next ++ more) (item :: items) := by
  intro gap' first rest item' fuel hgap' hfirst hfuel
  simp only [List.length_append, List.length_cons] at hfuel
  cases fuel with
  | zero => omega
  | succ fuel =>
      have hends : EndsNumeral (',' :: (gap ++ next ++ more ++ rest)) :=
        endsNumeral_append_cons blank_nil (by simp) _
      obtain ⟨left, hleft, hread⟩ := hfirst hgap' hends (show 2 * first.length ≤ fuel by omega)
      have hitems := @hmore gap next rest _ _ hgap hnext
        (show 2 * (next.length + more.length) < fuel by omega)
      simp only [List.append_assoc, List.cons_append] at hread hitems ⊢
      rw [readItems, hread]
      simp only [skipSpace_append hleft, skipSpace_cons (c := ',') rfl, hitems]

/-! ### Objects -/

theorem reads_object {gap gap' first more : List Char} {value : Reading}
    {members : List (Except Fault String × Reading)} (name : String) (hgap : Blank gap)
    (hgap' : Blank gap') (hfirst : Reads first value) (hmore : ReadsMembers more members) :
    Reads ('\x7b' :: gap ++ quote name ++ ':' :: gap' ++ first ++ more)
      (.object ((.ok name, value) :: members) none) := by
  intro outer rest fuel houter _ hfuel
  refine ⟨[], blank_nil, ?_⟩
  cases fuel with
  | zero => simp at hfuel
  | succ fuel =>
      simp only [List.length_append, List.length_cons] at hfuel
      have hmembers := @hmore gap gap' first rest name _ _ hgap hgap' hfirst
        (show 2 * (first.length + more.length) < fuel by omega)
      simp only [List.append_assoc, List.cons_append] at hmembers ⊢
      rw [readValue_brace houter, skipSpace_append hgap, hmembers]
      simp only [quote, List.cons_append, skipSpace_cons (c := '"') rfl]
      rfl

theorem skipSpace_quote {gap : List Char} (hgap : Blank gap) (name : String) (text : List Char) :
    skipSpace (gap ++ (quote name ++ text)) = '"' :: (name.toList.flatMap escapeChar ++ '"' :: text) := by
  rw [skipSpace_append hgap, quote, List.append_assoc]
  exact skipSpace_cons rfl _

theorem readsMembers_close {gap : List Char} (hgap : Blank gap) :
    ReadsMembers (gap ++ ['\x7d']) [] := by
  intro outer gap' first rest name value fuel houter hgap' hfirst hfuel
  cases fuel with
  | zero => omega
  | succ fuel =>
      have hends : EndsNumeral (gap ++ '\x7d' :: rest) := endsNumeral_append_cons hgap (by simp) rest
      obtain ⟨left, hleft, hread⟩ := hfirst hgap' hends (show 2 * first.length ≤ fuel by omega)
      simp only [List.append_assoc, List.cons_append, List.nil_append] at hread ⊢
      rw [readMembers, skipSpace_quote houter]
      simp only [scanString_flatMap_escapeChar, skipSpace_cons (c := ':') rfl, hread,
        skipSpace_append hleft, skipSpace_append hgap, skipSpace_cons (c := '\x7d') rfl]

theorem readsMembers_next {gap gap' next more : List Char} {value : Reading}
    {members : List (Except Fault String × Reading)} (name : String) (hgap : Blank gap)
    (hgap' : Blank gap') (hnext : Reads next value) (hmore : ReadsMembers more members) :
    ReadsMembers (',' :: gap ++ quote name ++ ':' :: gap' ++ next ++ more)
      ((.ok name, value) :: members) := by
  intro outer outer' first rest name' value' fuel houter houter' hfirst hfuel
  simp only [List.length_append, List.length_cons] at hfuel
  cases fuel with
  | zero => omega
  | succ fuel =>
      have hends : EndsNumeral (',' :: (gap ++ quote name ++ ':' :: gap' ++ next ++ more ++ rest)) :=
        endsNumeral_append_cons blank_nil (by simp) _
      obtain ⟨left, hleft, hread⟩ := hfirst houter' hends (show 2 * first.length ≤ fuel by omega)
      have hmembers := @hmore gap gap' next rest name _ _ hgap hgap' hnext
        (show 2 * (next.length + more.length) < fuel by omega)
      simp only [List.append_assoc, List.cons_append] at hread hmembers ⊢
      rw [readMembers, skipSpace_quote houter]
      simp only [scanString_flatMap_escapeChar, skipSpace_cons (c := ':') rfl, hread,
        skipSpace_append hleft, skipSpace_cons (c := ',') rfl, hmembers]

end Json

end CommandGrammar
