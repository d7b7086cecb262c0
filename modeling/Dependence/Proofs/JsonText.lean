import Mathlib.Data.List.Basic
import Dependence.Json.Reader

/-! Reading what was written. The text of a value, with anything behind it that cannot belong to a
number, is read as that value and leaves what is behind it. Numbers and strings come first, then
whole values by induction on the bound that the reader is given. -/

namespace Dependence.Json

variable {b : UInt8} {bs rest : Bytes} {d n : Nat}

theorem skipBlanks_cons (h : isBlank b = false) : skipBlanks (b :: bs) = b :: bs := by
  simp [skipBlanks, h]

theorem expect_append (word : String) (bs : Bytes) :
    expect word (Bytes.ofString word ++ bs) = some bs := by
  simp [expect]

section Numbers

def EndsNumber (rest : Bytes) : Prop :=
  ∀ b ∈ rest.head?, isDigit b = false ∧ b ≠ ascii '.' ∧ b ≠ ascii 'e' ∧ b ≠ ascii 'E'

theorem isDigit_digit (h : d < 10) : isDigit (ascii '0' + d.toUInt8) = true := by
  revert d
  decide

theorem value_digit (h : d < 10) : (ascii '0' + d.toUInt8 - ascii '0').toNat = d := by
  revert d
  decide

theorem digit_eq_zero (h : d < 10) (hzero : ascii '0' + d.toUInt8 = ascii '0') : d = 0 := by
  revert d
  decide

theorem isDigit_of_mem_decimal (n : Nat) : ∀ b ∈ decimal n, isDigit b = true := by
  induction n using decimal.induct with
  | case1 n h =>
    rw [decimal, if_pos h]
    simpa using isDigit_digit h
  | case2 n h ih =>
    rw [decimal, if_neg h, List.forall_mem_append]
    exact ⟨ih, by simpa using isDigit_digit (Nat.mod_lt n (by decide))⟩

theorem ofDigits_decimal (n : Nat) : ofDigits (decimal n) = n := by
  induction n using decimal.induct with
  | case1 n h =>
    rw [decimal, if_pos h]
    simpa [ofDigits] using value_digit h
  | case2 n h ih =>
    have hlast := value_digit (Nat.mod_lt n (show 0 < 10 by decide))
    unfold ofDigits at ih ⊢
    rw [decimal, if_neg h, List.foldl_append, ih, List.foldl_cons, List.foldl_nil, hlast]
    exact Nat.div_add_mod n 10

theorem decimal_ne_nil (n : Nat) : decimal n ≠ [] := by
  rw [decimal]
  split <;> simp

theorem head?_decimal (h : n ≠ 0) : (decimal n).head? ≠ some (ascii '0') := by
  induction n using decimal.induct with
  | case1 n hn =>
    rw [decimal, if_pos hn, List.head?_cons]
    exact fun hzero => h (digit_eq_zero hn (Option.some.inj hzero))
  | case2 n hn ih =>
    rw [decimal, if_neg hn, List.head?_append_of_ne_nil _ (decimal_ne_nil _)]
    exact ih (by omega)

theorem readDigits_append (hbs : ∀ b ∈ bs, isDigit b = true) (hne : bs ≠ [])
    (hrest : EndsNumber rest) : readDigits (bs ++ rest) = some (bs, rest) := by
  have hstop : rest.takeWhile isDigit = [] ∧ rest.dropWhile isDigit = rest := by
    cases rest with
    | nil => exact ⟨rfl, rfl⟩
    | cons b rest => simp [(hrest b rfl).1]
  have htake : (bs ++ rest).takeWhile isDigit = bs := by
    rw [List.takeWhile_append_of_pos hbs, hstop.1, List.append_nil]
  have hdrop : (bs ++ rest).dropWhile isDigit = rest := by
    rw [List.dropWhile_append_of_pos hbs, hstop.2]
  unfold readDigits
  rw [htake, hdrop]
  cases bs with
  | nil => exact absurd rfl hne
  | cons b bs => rfl

theorem EndsNumber.skipFraction (h : EndsNumber rest) : skipFraction rest = some (false, rest) := by
  cases rest with
  | nil => rfl
  | cons b rest => simp [Json.skipFraction, (h b rfl).2.1]

theorem EndsNumber.skipExponent (h : EndsNumber rest) : skipExponent rest = some (false, rest) := by
  cases rest with
  | nil => rfl
  | cons b rest => simp [Json.skipExponent, (h b rfl).2.2]

theorem readUnsigned_decimal (n : Nat) (h : EndsNumber rest) :
    readUnsigned (decimal n ++ rest) = some (some n, rest) := by
  have hdigits := readDigits_append (isDigit_of_mem_decimal n) (decimal_ne_nil n) h
  have hzero : (decimal n).head? = some (ascii '0') → (decimal n).length = 1 := by
    intro hhead
    have hn : n = 0 := by
      by_contra hn
      exact head?_decimal hn hhead
    simp [hn, decimal]
  simpa [readUnsigned, hdigits, h.skipFraction, h.skipExponent, ofDigits_decimal] using hzero

end Numbers

section Strings

def unitOf (b : UInt8) : TextUnit :=
  if b < 32 ∧ shortEscape? b = none then .code b.toNat else .byte b

theorem unescape?_of_shortEscape? {letter : UInt8} (h : shortEscape? b = some letter) :
    unescape? letter = some b ∧ letter ≠ ascii 'u' := by
  unfold shortEscape? at h
  split_ifs at h with hb hb hb hb hb
  all_goals
    cases h
    rw [hb]
    decide

theorem hexNumber?_hexDigit (h : n < 32) :
    hexNumber? (ascii '0') (ascii '0') (hexDigit (n / 16)) (hexDigit (n % 16)) = some n := by
  revert n
  decide

theorem characterBytes_of_lt (h : n < 32) : characterBytes n = [n.toUInt8] := by
  revert n
  decide

theorem readUnits_quote (bs : Bytes) : readUnits (ascii '"' :: bs) = some ([], bs) := by
  rw [readUnits.eq_def]
  simp

theorem readUnits_byte (hquote : b ≠ ascii '"') (hslash : b ≠ ascii '\\') (h : ¬ b < 32) :
    readUnits (b :: bs) = (readUnits bs).map fun (units, rest) => (.byte b :: units, rest) := by
  rw [readUnits.eq_def]
  simp [hquote, hslash, h]

theorem readUnits_letter {e c : UInt8} (h : unescape? e = some c ∧ e ≠ ascii 'u') :
    readUnits (ascii '\\' :: e :: bs) =
      (readUnits bs).map fun (units, rest) => (.byte c :: units, rest) := by
  have hmark : ascii '\\' ≠ ascii '"' := by decide
  rw [readUnits.eq_def]
  simp [hmark, h]

theorem readUnits_code {i j k l : UInt8} (h : hexNumber? i j k l = some n) :
    readUnits (ascii '\\' :: ascii 'u' :: i :: j :: k :: l :: bs) =
      (readUnits bs).map fun (units, rest) => (.code n :: units, rest) := by
  have hmark : ascii '\\' ≠ ascii '"' := by decide
  rw [readUnits.eq_def]
  simp [hmark, h]

theorem readUnits_escape (b : UInt8) (bs : Bytes) : readUnits (escape b ++ bs) =
    (readUnits bs).map fun (units, rest) => (unitOf b :: units, rest) := by
  by_cases hquoted : b = ascii '"' ∨ b = ascii '\\'
  · have hunit : unitOf b = .byte b := by
      obtain rfl | rfl := hquoted <;> decide
    have hself : unescape? b = some b ∧ b ≠ ascii 'u' := by
      obtain rfl | rfl := hquoted <;> decide
    rw [escape, if_pos hquoted, hunit]
    exact readUnits_letter hself
  obtain ⟨hquote, hslash⟩ := not_or.mp hquoted
  by_cases hcontrol : b < 32
  · cases hshort : shortEscape? b with
    | some letter =>
      simpa [escape, hquoted, hcontrol, hshort, unitOf] using
        readUnits_letter (unescape?_of_shortEscape? hshort)
    | none =>
      simpa [escape, hquoted, hcontrol, hshort, unitOf] using
        readUnits_code (hexNumber?_hexDigit (show b.toNat < 32 from hcontrol))
  · simpa [escape, hquoted, hcontrol, unitOf] using readUnits_byte hquote hslash hcontrol

theorem readUnits_flatMap_escape (bs rest : Bytes) :
    readUnits (bs.flatMap escape ++ ascii '"' :: rest) = some (bs.map unitOf, rest) := by
  induction bs with
  | nil => exact readUnits_quote rest
  | cons b bs ih => simp [readUnits_escape, ih]

theorem unitBytes?_map_unitOf (bs : Bytes) : unitBytes? (bs.map unitOf) = some bs := by
  induction bs with
  | nil => rfl
  | cons b bs ih =>
    rw [List.map_cons, unitOf]
    split_ifs with h
    · have hlt : b.toNat < 32 := h.1
      have hplain : isLeading b.toNat = false ∧ isTrailing b.toNat = false := by
        simp [isLeading, isTrailing]
        omega
      rw [unitBytes?.eq_def]
      simp [hplain, ih, characterBytes_of_lt hlt]
    · simp [unitBytes?, ih]

theorem readString_escape (s : String) (rest : Bytes) :
    readString ((Bytes.ofString s).flatMap escape ++ ascii '"' :: rest) = some (some s, rest) := by
  have htext : String.fromUTF8? ⟨(Bytes.ofString s).toArray⟩ = some s := by
    rw [Bytes.ofString, Array.toArray_toList]
    exact dif_pos s.isValidUTF8
  simp [readString, readUnits_flatMap_escape, unitText?, unitBytes?_map_unitOf, htext]

theorem exists_quote (s : Option String) : ∃ body, quote s = ascii '"' :: body ∧
    ∀ rest, readString (body ++ rest) = some (s, rest) := by
  cases s with
  | some s =>
    refine ⟨(Bytes.ofString s).flatMap escape ++ [ascii '"'], rfl, fun rest => ?_⟩
    rw [List.append_assoc, List.singleton_append, readString_escape]
  | none =>
    refine ⟨Bytes.ofString "\\ud800\"", by decide, fun rest => ?_⟩
    have hbody : Bytes.ofString "\\ud800\"" = [ascii '\\', ascii 'u', ascii 'd', ascii '8',
      ascii '0', ascii '0', ascii '"'] := by decide
    have hcode : hexNumber? (ascii 'd') (ascii '8') (ascii '0') (ascii '0') = some 0xD800 := by decide
    have hlone : unitText? [.code 0xD800] = none := by decide
    simp [hbody, readString, readUnits_code hcode, readUnits_quote, hlone]

theorem readName_quote (s : Option String) (rest : Bytes) :
    readName (quote s ++ ascii ':' :: rest) = some (s, rest) := by
  obtain ⟨body, hquote, hread⟩ := exists_quote s
  have hopen : expect "\"" (ascii '"' :: (body ++ ascii ':' :: rest)) =
      some (body ++ ascii ':' :: rest) := expect_append "\"" _
  have hcolon : expect ":" (ascii ':' :: rest) = some rest := expect_append ":" rest
  have hblank : isBlank (ascii '"') = false ∧ isBlank (ascii ':') = false := by decide
  simp [readName, hquote, skipBlanks_cons, hblank, hopen, hread, hcolon]

end Strings

section Values

/-- The blanks, and what values other than natural numbers and the ends of arrays start with. -/
def otherStarts : Bytes := [32, 9, 10, 13, ascii '[', ascii ']', ascii '\x7b', ascii '"', ascii 'n',
  ascii 't', ascii 'f', ascii '-']

theorem notMem_otherStarts (h : isDigit b = true) : b ∉ otherStarts := by
  intro hb
  have hnone : ∀ c ∈ otherStarts, isDigit c = false := by decide +kernel
  simp [hnone b hb] at h

theorem exists_decimal (n : Nat) : ∃ b bs, decimal n = b :: bs ∧ isDigit b = true := by
  obtain ⟨b, bs, h⟩ := List.exists_cons_of_ne_nil (decimal_ne_nil n)
  exact ⟨b, bs, h, isDigit_of_mem_decimal n b (h ▸ List.mem_cons_self)⟩

theorem isBlank_of_isDigit (h : isDigit b = true) : isBlank b = false := by
  have hb := notMem_otherStarts h
  simp only [otherStarts, List.mem_cons, not_or] at hb
  simp [isBlank, hb]

theorem exists_render (j : Json) :
    ∃ b bs, render j = b :: bs ∧ isBlank b = false ∧ b ≠ ascii ']' := by
  fun_cases render j with
  | case4 n =>
    obtain ⟨b, bs, h, hb⟩ := exists_decimal n
    have hclose := notMem_otherStarts hb
    simp only [otherStarts, List.mem_cons, not_or] at hclose
    exact ⟨b, bs, h, isBlank_of_isDigit hb, hclose.2.2.2.2.2.1⟩
  | case6 s =>
    obtain ⟨body, h, -⟩ := exists_quote s
    exact ⟨ascii '"', body, h, by decide, by decide⟩
  | _ => exact ⟨_, _, rfl, by decide, by decide⟩

theorem length_renderItems_pos (items : List Json) : 0 < (renderItems items).length := by
  cases items <;> simp [renderItems]

theorem endsNumber_cons (h : b ∈ [ascii ',', ascii ']', ascii '\x7d']) (rest : Bytes) :
    EndsNumber (b :: rest) := by
  have hends : ∀ c ∈ [ascii ',', ascii ']', ascii '\x7d'], isDigit c = false ∧
      c ≠ ascii '.' ∧ c ≠ ascii 'e' ∧ c ≠ ascii 'E' := by decide +kernel
  intro c hc
  obtain rfl : b = c := by simpa using hc
  exact hends b h

theorem endsNumber_renderItems (items : List Json) (rest : Bytes) :
    EndsNumber (renderItems items ++ rest) := by
  cases items <;> exact endsNumber_cons (by simp) _

theorem endsNumber_renderMembers (members : List (Option String × Json)) (rest : Bytes) :
    EndsNumber (renderMembers members ++ rest) := by
  cases members <;> exact endsNumber_cons (by simp) _

structure ReadsBack (n : Nat) : Prop where
  value : ∀ j rest, (render j).length ≤ n → EndsNumber rest →
    readValue n (render j ++ rest) = some (j, rest)
  items : ∀ item items rest, (render item ++ renderItems items).length ≤ n →
    readItems n (render item ++ renderItems items ++ rest) = some (item :: items, rest)
  members : ∀ name value members rest,
    (quote name ++ ascii ':' :: render value ++ renderMembers members).length ≤ n →
    readMembers n (quote name ++ ascii ':' :: render value ++ renderMembers members ++ rest) =
      some ((name, value) :: members, rest)

theorem ReadsBack.items_succ (h : ReadsBack n) (item : Json) (items : List Json) (rest : Bytes)
    (hn : (render item ++ renderItems items).length ≤ n + 1) :
    readItems (n + 1) (render item ++ renderItems items ++ rest) = some (item :: items, rest) := by
  have hpos := length_renderItems_pos items
  rw [List.length_append] at hn
  rw [readItems, List.append_assoc,
    h.value item _ (by omega) (endsNumber_renderItems items rest)]
  cases items with
  | nil =>
    have hblank : isBlank (ascii ']') = false := by decide
    simp [renderItems, skipBlanks_cons hblank]
  | cons next items =>
    have hblank : isBlank (ascii ',') = false := by decide
    have hcomma : ascii ',' ≠ ascii ']' := by decide
    have hnext := h.items next items rest (by simp [renderItems] at hn ⊢; omega)
    rw [List.append_assoc] at hnext
    simp [renderItems, skipBlanks_cons hblank, hcomma, hnext]

theorem ReadsBack.members_succ (h : ReadsBack n) (name : Option String) (value : Json)
    (members : List (Option String × Json)) (rest : Bytes)
    (hn : (quote name ++ ascii ':' :: render value ++ renderMembers members).length ≤ n + 1) :
    readMembers (n + 1) (quote name ++ ascii ':' :: render value ++ renderMembers members ++ rest) =
      some ((name, value) :: members, rest) := by
  have hname := readName_quote name (render value ++ (renderMembers members ++ rest))
  have hvalue := h.value value (renderMembers members ++ rest)
    (by simp at hn; omega) (endsNumber_renderMembers members rest)
  rw [readMembers]
  simp only [List.append_assoc, List.cons_append, hname, hvalue]
  cases members with
  | nil =>
    have hblank : isBlank (ascii '\x7d') = false := by decide
    simp [renderMembers, skipBlanks_cons hblank]
  | cons next members =>
    have hblank : isBlank (ascii ',') = false := by decide
    have hcomma : ascii ',' ≠ ascii '\x7d' := by decide
    have hnext := h.members next.1 next.2 members rest (by simp [renderMembers] at hn ⊢; omega)
    simp only [List.append_assoc, List.cons_append] at hnext
    simp [renderMembers, skipBlanks_cons hblank, hcomma, hnext]

theorem readValue_number (natural : Option Nat) (hrest : EndsNumber rest) :
    readValue (n + 1) (render (number natural) ++ rest) = some (number natural, rest) := by
  cases natural with
  | none =>
    have hminus : render (number none) = ascii '-' :: decimal 0 := by decide +kernel
    simp +decide [hminus, readValue, skipBlanks_cons, readUnsigned_decimal 0 hrest]
  | some k =>
    obtain ⟨b, bs, hdecimal, hb⟩ := exists_decimal k
    have hread := readUnsigned_decimal k hrest
    have hother := notMem_otherStarts hb
    simp only [otherStarts, List.mem_cons, not_or] at hother
    rw [hdecimal, List.cons_append] at hread
    rw [render, hdecimal, List.cons_append]
    simp [readValue, skipBlanks_cons (isBlank_of_isDigit hb), hother, hread]

theorem readValue_string (s : Option String) (rest : Bytes) :
    readValue (n + 1) (render (string s) ++ rest) = some (string s, rest) := by
  obtain ⟨body, hquote, hread⟩ := exists_quote s
  simp +decide [render, hquote, readValue, skipBlanks_cons, hread]

theorem ReadsBack.value_succ (h : ReadsBack n) (j : Json) (rest : Bytes)
    (hn : (render j).length ≤ n + 1) (hrest : EndsNumber rest) :
    readValue (n + 1) (render j ++ rest) = some (j, rest) := by
  fun_cases render j with
  | case1 =>
    have hword : Bytes.ofString "null" = ascii 'n' :: Bytes.ofString "ull" := rfl
    simp +decide [hword, readValue, skipBlanks_cons, expect_append]
  | case2 =>
    have hword : Bytes.ofString "true" = ascii 't' :: Bytes.ofString "rue" := rfl
    simp +decide [hword, readValue, skipBlanks_cons, expect_append]
  | case3 =>
    have hword : Bytes.ofString "false" = ascii 'f' :: Bytes.ofString "alse" := rfl
    simp +decide [hword, readValue, skipBlanks_cons, expect_append]
  | case4 k => exact readValue_number (some k) hrest
  | case5 => exact readValue_number none hrest
  | case6 s => exact readValue_string s rest
  | case7 => simp +decide [readValue, skipBlanks_cons]
  | case8 item items =>
    obtain ⟨b, bs, hitem, hblank, hclose⟩ := exists_render item
    have hitems := h.items item items rest (by simp [render] at hn ⊢; omega)
    simp only [hitem, List.append_assoc, List.cons_append] at hitems
    simp +decide [hitem, readValue, skipBlanks_cons, hblank, hclose, hitems]
  | case9 => simp +decide [readValue, skipBlanks_cons]
  | case10 name value members =>
    obtain ⟨body, hquote, -⟩ := exists_quote name
    have hmembers := h.members name value members rest (by simp [render] at hn ⊢; omega)
    simp only [hquote, List.append_assoc, List.cons_append] at hmembers
    simp +decide [hquote, readValue, skipBlanks_cons, hmembers]

theorem readsBack (n : Nat) : ReadsBack n := by
  induction n with
  | zero =>
    -- No text is empty.
    have hne : ∀ j, render j ≠ [] := by
      intro j
      obtain ⟨b, bs, hj, -⟩ := exists_render j
      simp [hj]
    refine ⟨fun j rest h => ?_, fun item items rest h => ?_, fun name value members rest h => ?_⟩
    · simp [hne] at h
    · simp [hne] at h
    · simp at h
  | succ n ih => exact ⟨ih.value_succ, ih.items_succ, ih.members_succ⟩

theorem read_render (j : Json) : read (render j) = some j := by
  have hvalue := (readsBack (2 * (render j).length + 2)).value j []
    (by omega) (by simp [EndsNumber])
  rw [List.append_nil] at hvalue
  simp [read, hvalue, skipBlanks]

end Values

end Dependence.Json
