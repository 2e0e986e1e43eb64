import Mathlib.Algebra.Group.Int.Defs
import Mathlib.Data.List.Induction
import Mathlib.Data.List.TakeWhile
import PacketTransport.Proofs.Config.Written

/-!
# Integers that are written and read back

An integer is written with blanks and a sign in front, and with decimal digits, with octal ones
behind a zero or with hexadecimal ones behind `0x`.  A configuration reads exactly these texts as
integers, if the integer fits 64 bits with a sign, and answers with the default for all others.

* `IsDigit`, `Spelled` — the characters of digits, and the number that some of them spell;
* `spelled_iff` — the digits are those that are read;
* `Magnitude`, `Sign`, `Literal` — the texts that write an integer, and which one;
* `base_of_magnitude`, `magnitude_of_base` — the digits that reading finds;
* `ofText_of_literal`, `literal_of_ofText` — what is read, and that nothing else is;
* `Radix`, `numeral`, `literal_numeral` — an integer written with the digits of a base;
* `getInt_reads_literals` — looking up integers.
-/

namespace PacketTransport

namespace IntegerText

/-! ### Digits -/

/-- The characters of a digit: letters stand for the digits from ten on, in either case. -/
def IsDigit (c : Char) (d : Nat) : Prop := d < 16 ∧ (c = d.digitChar ∨ c = d.digitChar.toUpper)

/-- The number that digits of a base spell. -/
inductive Spelled (base : Nat) : List Char → Nat → Prop
  | nil : Spelled base [] 0
  | concat {cs : List Char} {n : Nat} {c : Char} {d : Nat} (hcs : Spelled base cs n)
      (hc : IsDigit c d) (hd : d < base) : Spelled base (cs ++ [c]) (n * base + d)

theorem distance_lt {a b c : Char} (h : a ≤ c ∧ c ≤ b) :
    a.toNat ≤ c.toNat ∧ c.toNat - a.toNat < b.toNat + 1 - a.toNat :=
  ⟨h.1, Nat.sub_lt_sub_right h.1 (Nat.lt_succ_of_le h.2)⟩

/-- Characters that stand as far behind the same one are the same. -/
theorem eq_of_toNat_add {a c x : Char} (hle : a.toNat ≤ c.toNat)
    (hx : x.toNat = a.toNat + (c.toNat - a.toNat)) : c = x :=
  Char.toNat_inj.1 ((Nat.add_sub_cancel' hle).symm.trans hx.symm)

theorem isDigit_of_digitValue {c : Char} {d : Nat} (h : digitValue c = some d) : IsDigit c d := by
  have hfigure : ∀ k, k < 10 → k.digitChar.toNat = '0'.toNat + k := by decide
  have hlower : ∀ k, k < 6 → (k + 10).digitChar.toNat = 'a'.toNat + k := by decide
  have hupper : ∀ k, k < 6 → (k + 10).digitChar.toUpper.toNat = 'A'.toNat + k := by decide
  rw [digitValue] at h
  split at h
  · rename_i hrange
    obtain ⟨hleast, hten⟩ := distance_lt hrange
    obtain rfl : c.toNat - '0'.toNat = d := Option.some.inj h
    exact ⟨Nat.lt_trans hten (by decide), .inl (eq_of_toNat_add hleast (hfigure _ hten))⟩
  split at h
  · rename_i hrange
    obtain ⟨hleast, hsix⟩ := distance_lt hrange
    obtain rfl : c.toNat - 'a'.toNat + 10 = d := Option.some.inj h
    exact ⟨Nat.add_lt_add_right hsix 10, .inl (eq_of_toNat_add hleast (hlower _ hsix))⟩
  split at h
  · rename_i hrange
    obtain ⟨hleast, hsix⟩ := distance_lt hrange
    obtain rfl : c.toNat - 'A'.toNat + 10 = d := Option.some.inj h
    exact ⟨Nat.add_lt_add_right hsix 10, .inr (eq_of_toNat_add hleast (hupper _ hsix))⟩
  · cases h

/-- Digits are read as what they are. -/
theorem digitValue_eq_some_iff {c : Char} {d : Nat} : digitValue c = some d ↔ IsDigit c d := by
  refine ⟨isDigit_of_digitValue, ?_⟩
  rintro ⟨hd, rfl | rfl⟩
  · revert d
    decide
  · revert d
    decide

/-- Digits of a base, and nothing else. -/
def AllDigits (base : Nat) (cs : List Char) : Prop := ∀ c ∈ cs, isDigitOf base c = true

theorem numberOf_concat (base : Nat) (cs : List Char) (c : Char) :
    numberOf base (cs ++ [c]) = numberOf base cs * base + (digitValue c).getD 0 := by
  rw [numberOf, List.foldl_append]
  rfl

theorem numberOf_zero_cons (base : Nat) (cs : List Char) :
    numberOf base ('0' :: cs) = numberOf base cs := by
  show cs.foldl _ (0 * base + 0) = _
  rw [Nat.zero_mul]
  rfl

/-- **The number that is read** is the one that the digits spell. -/
theorem spelled_iff {base n : Nat} {cs : List Char} :
    Spelled base cs n ↔ AllDigits base cs ∧ numberOf base cs = n := by
  constructor
  · intro h
    induction h with
    | nil => exact ⟨nofun, rfl⟩
    | concat hcs hc hd ih =>
      have hvalue := digitValue_eq_some_iff.2 hc
      refine ⟨List.forall_mem_append.2 ⟨ih.1, List.forall_mem_singleton.2 ?_⟩, ?_⟩
      · rw [isDigitOf, hvalue]
        exact decide_eq_true hd
      · rw [numberOf_concat, ih.2, hvalue, Option.getD_some]
  · rintro ⟨hall, rfl⟩
    induction cs using List.reverseRecOn with
    | nil => exact .nil
    | append_singleton cs c ih =>
      obtain ⟨hcs, hc⟩ := List.forall_mem_append.1 hall
      have hdigit := List.forall_mem_singleton.1 hc
      rw [isDigitOf, Option.any_eq_true] at hdigit
      obtain ⟨d, hvalue, hd⟩ := hdigit
      rw [numberOf_concat, hvalue, Option.getD_some]
      exact .concat (ih hcs) (digitValue_eq_some_iff.1 hvalue) (of_decide_eq_true hd)

/-- A blank is not a digit of any base. -/
theorem digitValue_of_isBlank {c : Char} (h : isBlank c = true) : digitValue c = none := by
  have hmem := List.elem_iff.1 h
  simp only [List.mem_cons, List.not_mem_nil, or_false] at hmem
  rcases hmem with rfl | rfl | rfl | rfl | rfl | rfl <;> rfl

/-! ### Texts that write an integer -/

/-- The digits of a number with what shows their base.  A zero alone has no digits behind it. -/
inductive Magnitude : List Char → Nat → Prop
  | decimal {cs : List Char} {n : Nat} (hne : cs ≠ []) (hfront : cs.head? ≠ some '0')
      (hdigits : Spelled 10 cs n) : Magnitude cs n
  | octal {cs : List Char} {n : Nat} (hdigits : Spelled 8 cs n) : Magnitude ('0' :: cs) n
  | hexadecimal {x : Char} {cs : List Char} {n : Nat} (hx : x = 'x' ∨ x = 'X') (hne : cs ≠ [])
      (hdigits : Spelled 16 cs n) : Magnitude ('0' :: x :: cs) n

/-- The sign of an integer, if one is written. -/
inductive Sign where
  | none
  | plus
  | minus
deriving DecidableEq, Repr

namespace Sign

def text : Sign → List Char
  | .none => []
  | .plus => ['+']
  | .minus => ['-']

def negative : Sign → Bool
  | .none | .plus => false
  | .minus => true

/-- The integer with this sign. -/
def apply : Sign → Nat → Int
  | .none, n | .plus, n => n
  | .minus, n => -n

theorem apply_eq (s : Sign) (n : Nat) :
    s.apply n = if s.negative then -(n : Int) else (n : Int) := by
  cases s <;> rfl

end Sign

/-- A text that writes an integer. -/
inductive Literal : List Char → Int → Prop
  | intro (blanks : List Char) (s : Sign) {digits : List Char} {n : Nat}
      (hblanks : ∀ c ∈ blanks, isBlank c = true) (hdigits : Magnitude digits n) :
      Literal (blanks ++ (s.text ++ digits)) (s.apply n)

/-- An integer of 64 bits with a sign. -/
def InRange (n : Int) : Prop := -2 ^ 63 ≤ n ∧ n ≤ 2 ^ 63 - 1

instance (n : Int) : Decidable (InRange n) :=
  inferInstanceAs (Decidable (-2 ^ 63 ≤ n ∧ n ≤ 2 ^ 63 - 1))

theorem fits_iff {n : Int} : fits n = true ↔ InRange n := by
  rw [fits, decide_eq_true_eq, InRange]
  omega

/-! ### Reading an integer -/

theorem base_decimal {cs : List Char} (h : cs.head? ≠ some '0') : base cs = (10, cs) := by
  unfold base
  split
  · exact absurd rfl h
  · exact absurd rfl h
  · rfl

theorem base_octal {cs : List Char} (h : AllDigits 8 cs) : base ('0' :: cs) = (8, '0' :: cs) := by
  match cs with
  | [] | [_] => rfl
  | x :: d :: cs =>
    refine if_neg fun hmark => ?_
    have hx : isDigitOf 8 x = true := h x List.mem_cons_self
    rcases hmark.1 with rfl | rfl
    · exact absurd hx (by decide)
    · exact absurd hx (by decide)

theorem base_hexadecimal {x : Char} {cs : List Char} (hx : x = 'x' ∨ x = 'X') (hne : cs ≠ [])
    (h : AllDigits 16 cs) : base ('0' :: x :: cs) = (16, cs) := by
  cases cs with
  | nil => exact absurd rfl hne
  | cons d cs => exact if_pos ⟨hx, h d List.mem_cons_self⟩

/-- The digits of a number are found. -/
theorem base_of_magnitude {cs : List Char} {n : Nat} (h : Magnitude cs n) :
    ∃ b ds, base cs = (b, ds) ∧ ds ≠ [] ∧ AllDigits b ds ∧ numberOf b ds = n := by
  cases h with
  | decimal hne hfront hdigits =>
    exact ⟨10, cs, base_decimal hfront, hne, spelled_iff.1 hdigits⟩
  | @octal cs n hdigits =>
    obtain ⟨hall, hnumber⟩ := spelled_iff.1 hdigits
    exact ⟨8, '0' :: cs, base_octal hall, List.cons_ne_nil _ _,
      List.forall_mem_cons.2 ⟨by decide, hall⟩, (numberOf_zero_cons 8 cs).trans hnumber⟩
  | @hexadecimal x cs n hx hne hdigits =>
    have hspelled := spelled_iff.1 hdigits
    exact ⟨16, cs, base_hexadecimal hx hne hspelled.1, hne, hspelled⟩

/-- Digits that are found are those of a number. -/
theorem magnitude_of_base {cs ds : List Char} {b : Nat} (h : base cs = (b, ds)) (hne : ds ≠ [])
    (hdigits : AllDigits b ds) : Magnitude cs (numberOf b ds) := by
  -- The zero in front of octal digits is read along with them.
  have hoctal : ∀ {rest}, AllDigits 8 ('0' :: rest) →
      Magnitude ('0' :: rest) (numberOf 8 ('0' :: rest)) := fun {rest} hrest =>
    .octal (spelled_iff.2 ⟨(List.forall_mem_cons.1 hrest).2, (numberOf_zero_cons 8 rest).symm⟩)
  unfold base at h
  split at h
  · split at h
    · rename_i hmark
      cases h
      exact .hexadecimal hmark.1 hne (spelled_iff.2 ⟨hdigits, rfl⟩)
    · cases h
      exact hoctal hdigits
  · cases h
    exact hoctal hdigits
  · rename_i hzero
    cases h
    refine .decimal hne (fun hfront => ?_) (spelled_iff.2 ⟨hdigits, rfl⟩)
    obtain ⟨rest, hcs⟩ := List.head?_eq_some_iff.1 hfront
    exact hzero rest hcs

/-- A number begins with a decimal digit, whatever its base. -/
theorem Magnitude.exists_digit {cs : List Char} {n : Nat} (h : Magnitude cs n) :
    ∃ d rest, cs = d :: rest ∧ isDigitOf 10 d = true := by
  cases h with
  | decimal hne hfront hdigits =>
    cases cs with
    | nil => exact absurd rfl hne
    | cons d rest => exact ⟨d, rest, rfl, (spelled_iff.1 hdigits).1 d List.mem_cons_self⟩
  | octal hdigits => exact ⟨'0', _, rfl, by decide⟩
  | hexadecimal hx hne hdigits => exact ⟨'0', _, rfl, by decide⟩

theorem sign_text (s : Sign) {d : Char} (h : isDigitOf 10 d = true) (rest : List Char) :
    sign (s.text ++ d :: rest) = (s.negative, d :: rest) := by
  cases s with
  | none =>
    show sign (d :: rest) = (false, d :: rest)
    unfold sign
    split
    · rename_i heq
      rw [(List.cons.inj heq).1] at h
      exact absurd h (by decide)
    · rename_i heq
      rw [(List.cons.inj heq).1] at h
      exact absurd h (by decide)
    · rfl
  | plus => rfl
  | minus => rfl

theorem exists_sign (cs : List Char) :
    ∃ s : Sign, ∃ digits, cs = s.text ++ digits ∧ sign cs = (s.negative, digits) := by
  unfold sign
  split
  · exact ⟨.minus, _, rfl, rfl⟩
  · exact ⟨.plus, _, rfl, rfl⟩
  · exact ⟨.none, cs, rfl, rfl⟩

/-- Reading, when the sign and the base are found. -/
theorem ofText_eq {cs digits ds : List Char} {s : Sign} {b : Nat}
    (hsign : sign (cs.dropWhile isBlank) = (s.negative, digits)) (hbase : base digits = (b, ds)) :
    ofText cs =
      if ds.takeWhile (isDigitOf b) = [] then .notInteger
      else if !fits (s.apply (numberOf b (ds.takeWhile (isDigitOf b)))) then .outOfRange
      else if ds.dropWhile (isDigitOf b) = [] then
        .value (s.apply (numberOf b (ds.takeWhile (isDigitOf b))))
      else .notInteger := by
  rw [ofText, hsign]
  simp only [hbase, Sign.apply_eq]

/-- **A text that writes an integer** is read, unless the integer is out of range. -/
theorem ofText_of_literal {cs : List Char} {m : Int} (h : Literal cs m) :
    ofText cs = if InRange m then .value m else .outOfRange := by
  obtain ⟨blanks, s, hblanks, hdigits⟩ := h
  rename_i digits n
  obtain ⟨b, ds, hbase, hne, hall, hnumber⟩ := base_of_magnitude hdigits
  obtain ⟨d, rest, rfl, hd⟩ := hdigits.exists_digit
  -- Neither a sign nor a digit is a blank.
  have hstop : (s.text ++ d :: rest).dropWhile isBlank = s.text ++ d :: rest := by
    cases s with
    | none =>
      refine List.dropWhile_cons_of_neg fun hblank => ?_
      rw [isDigitOf, digitValue_of_isBlank hblank] at hd
      cases hd
    | plus => rfl
    | minus => rfl
  have hsign : sign ((blanks ++ (s.text ++ d :: rest)).dropWhile isBlank) =
      (s.negative, d :: rest) := by
    rw [List.dropWhile_append_of_pos hblanks, hstop, sign_text s hd]
  have htake : ds.takeWhile (isDigitOf b) = ds := List.takeWhile_eq_self_iff.2 hall
  have hdrop : ds.dropWhile (isDigitOf b) = [] := List.dropWhile_eq_nil_iff.2 hall
  rw [ofText_eq hsign hbase, htake, hdrop, hnumber, if_neg hne, if_pos rfl]
  by_cases hrange : InRange (s.apply n)
  · rw [if_pos hrange, fits_iff.2 hrange]
    rfl
  · rw [if_neg hrange, Bool.eq_false_iff.2 fun hfits => hrange (fits_iff.1 hfits)]
    rfl

/-- **What is read** is an integer that the text writes. -/
theorem literal_of_ofText {cs : List Char} {m : Int} (h : ofText cs = .value m) :
    Literal cs m ∧ InRange m := by
  obtain ⟨s, digits, hsplit, hsign⟩ := exists_sign (cs.dropWhile isBlank)
  obtain ⟨b, ds, hbase⟩ : ∃ b ds, base digits = (b, ds) := ⟨_, _, rfl⟩
  rw [ofText_eq hsign hbase] at h
  split at h
  · cases h
  rename_i hne
  split at h
  · cases h
  rename_i hfits
  split at h
  · rename_i hdrop
    have hall : AllDigits b ds := List.dropWhile_eq_nil_iff.1 hdrop
    rw [List.takeWhile_eq_self_iff.2 hall] at h hne hfits
    cases h
    refine ⟨?_, fits_iff.1 (by simpa using hfits)⟩
    have hblanks : ∀ c ∈ cs.takeWhile isBlank, isBlank c = true := fun c hc =>
      List.mem_takeWhile_imp hc
    have hliteral := Literal.intro _ s hblanks (magnitude_of_base hbase hne hall)
    rwa [← hsplit, List.takeWhile_append_dropWhile] at hliteral
  · cases h

/-! ### Writing an integer -/

/-- The base of the digits that write an integer. -/
inductive Radix where
  | decimal
  | octal
  | hexadecimal
deriving DecidableEq, Repr

namespace Radix

def base : Radix → Nat
  | .decimal => 10
  | .octal => 8
  | .hexadecimal => 16

/-- What stands in front of the digits. -/
def lead : Radix → List Char
  | .decimal => []
  | .octal => ['0']
  | .hexadecimal => ['0', 'x']

theorem one_lt_base (r : Radix) : 1 < r.base := by cases r <;> decide

theorem base_le (r : Radix) : r.base ≤ 16 := by cases r <;> decide

end Radix

/-- A number with a sign, written with the digits of a base. -/
def numeral (r : Radix) (s : Sign) (n : Nat) : List Char :=
  s.text ++ (r.lead ++ Nat.toDigits r.base n)

/-- Digits that are written spell their number. -/
theorem spelled_toDigits {b : Nat} (hone : 1 < b) (hb : b ≤ 16) (n : Nat) :
    Spelled b (Nat.toDigits b n) n := by
  have hdigit : ∀ {d}, d < b → IsDigit d.digitChar d := fun hd =>
    ⟨Nat.lt_of_lt_of_le hd hb, .inl rfl⟩
  induction n using Nat.strongRecOn with
  | ind n ih =>
    by_cases hlt : n < b
    · rw [Nat.toDigits_of_lt_base hlt]
      have hlast := Spelled.concat .nil (hdigit hlt) hlt
      rwa [Nat.zero_mul, Nat.zero_add, List.nil_append] at hlast
    · have hle : b ≤ n := Nat.le_of_not_lt hlt
      have hless : n / b < n :=
        Nat.div_lt_self (Nat.lt_of_lt_of_le (Nat.zero_lt_of_lt hone) hle) hone
      have hmod : n % b < b := Nat.mod_lt n (Nat.zero_lt_of_lt hone)
      have hlast := Spelled.concat (ih (n / b) hless) (hdigit hmod) hmod
      rwa [Nat.div_add_mod', ← Nat.toDigits_of_base_le hone hle] at hlast

/-- No digits are written in front of the first that counts. -/
theorem head?_toDigits {b n : Nat} (hone : 1 < b) (hn : n ≠ 0) :
    (Nat.toDigits b n).head? ≠ some '0' := by
  induction n using Nat.strongRecOn with
  | ind n ih =>
    by_cases hlt : n < b
    · rw [Nat.toDigits_of_lt_base hlt]
      exact fun heq => hn (Nat.digitChar_eq_zero.1 (Option.some.inj heq))
    · have hle : b ≤ n := Nat.le_of_not_lt hlt
      have hmore : n / b ≠ 0 := Nat.div_ne_zero_iff.2 ⟨Nat.ne_zero_of_lt hone, hle⟩
      have hfront := ih (n / b) (Nat.div_lt_self (Nat.pos_of_ne_zero hn) hone) hmore
      obtain ⟨d, ds, hds⟩ := List.exists_cons_of_ne_nil (Nat.toDigits_ne_nil (n := n / b) (b := b))
      rw [hds] at hfront
      rw [Nat.toDigits_of_base_le hone hle, hds]
      exact hfront

theorem magnitude_digits (r : Radix) (n : Nat) :
    Magnitude (r.lead ++ Nat.toDigits r.base n) n := by
  have hdigits := spelled_toDigits r.one_lt_base r.base_le n
  cases r with
  | decimal =>
    by_cases hn : n = 0
    · -- The digit of zero is the mark of the octal digits, and none follow.
      rw [hn, Nat.toDigits_zero]
      exact .octal .nil
    · exact .decimal Nat.toDigits_ne_nil (head?_toDigits (by decide) hn) hdigits
  | octal => exact .octal hdigits
  | hexadecimal => exact .hexadecimal (.inl rfl) Nat.toDigits_ne_nil hdigits

theorem literal_numeral (r : Radix) (s : Sign) (n : Nat) : Literal (numeral r s n) (s.apply n) :=
  .intro [] s nofun (magnitude_digits r n)

theorem isBlank_of_mem {c : Char} (h : c ∈ lineBlanks) : isBlank c = true := by
  simp only [lineBlanks, List.mem_cons, List.not_mem_nil, or_false] at h
  rcases h with rfl | rfl | rfl | rfl <;> rfl

/-- What a number is written with is not a blank. -/
theorem not_isBlank_numeral (r : Radix) (s : Sign) (n : Nat) :
    ∀ c ∈ numeral r s n, isBlank c = false := by
  refine List.forall_mem_append.2 ⟨?_, List.forall_mem_append.2 ⟨?_, fun c hc => ?_⟩⟩
  · cases s with
    | none => exact nofun
    | plus => exact List.forall_mem_singleton.2 rfl
    | minus => exact List.forall_mem_singleton.2 rfl
  · cases r with
    | decimal => exact nofun
    | octal => exact List.forall_mem_singleton.2 rfl
    | hexadecimal => exact List.forall_mem_cons.2 ⟨rfl, List.forall_mem_singleton.2 rfl⟩
  · refine Bool.eq_false_iff.2 fun hblank => ?_
    have hdigit := (spelled_iff.1 (spelled_toDigits r.one_lt_base r.base_le n)).1 c hc
    rw [isDigitOf, digitValue_of_isBlank hblank] at hdigit
    cases hdigit

/-- A number that is written can be a value. -/
theorem valueText_numeral (r : Radix) (s : Sign) (n : Nat) : ValueText (numeral r s n) := by
  have hnone : ∀ c ∈ lineBlanks, c ∉ numeral r s n := by
    intro c hblank hc
    have hnot := not_isBlank_numeral r s n c hc
    rw [isBlank_of_mem hblank] at hnot
    cases hnot
  refine ⟨hnone _ (by decide), fun c hc heq => ?_, fun c hc heq => ?_⟩
  · exact hnone c (List.mem_append_left ['\r', '\n'] hc) (List.mem_of_mem_head? heq)
  · exact hnone c (List.mem_append_left ['\n'] hc) (List.mem_of_getLast? heq)

end IntegerText

/-! ### Looking up integers -/

namespace Config

open IntegerText

variable {c : Config} {s k : String}

theorem getInt_of_value {n : Int} (h : ofText (c.get s k).toList = .value n) (d : Int) :
    c.getInt s k d = (n, []) := by
  have hne : c.get s k ≠ "" := by
    intro hempty
    have hread : ofText "".toList = .notInteger := by decide
    rw [hempty, hread] at h
    cases h
  simp only [getInt, if_neg hne, h]

theorem getInt_of_no_value (h : ∀ n, ofText (c.get s k).toList ≠ .value n) (d : Int) :
    (c.getInt s k d).1 = d := by
  simp only [getInt]
  split
  · rfl
  · split
    · rename_i n heq
      exact absurd heq (h n)
    · rfl
    · rfl

theorem getInt_of_literal {v : String} {n : Int} (hlookup : c.lookup (entryName s k) = some v)
    (h : Literal v.toList n) (hrange : InRange n) (d : Int) : c.getInt s k d = (n, []) := by
  refine getInt_of_value ?_ d
  rw [get, hlookup, Option.getD_some, ofText_of_literal h, if_pos hrange]

end Config

open IntegerText ConfigEntry

/-- **Looking up an integer.**  A value that writes an integer in range is read as that integer,
and any other value as the default.  So an integer in range that is written with the digits of any
of the bases and with its sign can be a value, and every text that says it is read back as it. -/
theorem getInt_reads_literals :
    (∀ (c : Config) (s k v : String) (d : Int), c.lookup (entryName s k) = some v →
      (∀ n, Literal v.toList n → InRange n → c.getInt s k d = (n, [])) ∧
        ((∀ n, Literal v.toList n → ¬ InRange n) → (c.getInt s k d).1 = d)) ∧
      ∀ (r : Radix) (sign : Sign) (n : Int), InRange n → sign.apply n.natAbs = n →
        (∀ s k : String, SectionText s.toList → KeyText k.toList →
          ConfigEntry.Proper ⟨s, k, .ofList (numeral r sign n.natAbs)⟩) ∧
        ∀ (es : List ConfigEntry) (doc : List WrittenLine) (s k : String) (d : Int),
          Renders doc es →
          lastValue? (fun e => e.name = entryName s k) es =
            some (.ofList (numeral r sign n.natAbs)) →
          (({} : Config).parse (.ofList (documentText doc))).1.getInt s k d = (n, []) := by
  refine ⟨fun c s k v d hlookup => ⟨fun n h hrange => Config.getInt_of_literal hlookup h hrange d,
    fun hnone => ?_⟩, fun r sign n hrange hsign => ⟨fun s k hs hk => ?_, ?_⟩⟩
  · refine Config.getInt_of_no_value (fun n hread => ?_) d
    rw [Config.get, hlookup, Option.getD_some] at hread
    obtain ⟨hliteral, hrange⟩ := literal_of_ofText hread
    exact hnone n hliteral hrange
  · refine ⟨hs, hk, ?_⟩
    rw [String.toList_ofList]
    exact valueText_numeral r sign n.natAbs
  · intro es doc s k d hdoc hlast
    have hliteral := literal_numeral r sign n.natAbs
    rw [hsign, ← String.toList_ofList (l := numeral r sign n.natAbs)] at hliteral
    refine Config.getInt_of_literal ?_ hliteral hrange d
    rw [Config.lookup_parse_new, entriesIn_documentText hdoc.proper, hdoc.entries_eq, hlast]

end PacketTransport
