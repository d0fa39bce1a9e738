import Mathlib.Tactic.IntervalCases
import TableClient.Proofs.Text.Digits

/-! What the readers of digits accept. The texts of integers and of bytes are defined by themselves, as
relations between a text and what it spells; a reader finds exactly what is spelled. The reader of bytes
takes a few texts more: a plus sign may stand for the first digit of a byte. -/

namespace TableClient.Text

/-! ### Integers -/

/-- One or more decimal digits and the number that they spell. -/
structure SpellsNumber (ds : List Char) (n : Nat) : Prop where
  ne_nil : ds ≠ []
  isDigit : ∀ c ∈ ds, c.isDigit
  value : Nat.ofDigitChars 10 ds 0 = n

/-- An optional sign before the digits of a number. -/
inductive SpellsInteger : List Char → Int → Prop
  | plain {ds : List Char} {n : Nat} : SpellsNumber ds n → SpellsInteger ds n
  | plus {ds : List Char} {n : Nat} : SpellsNumber ds n → SpellsInteger ('+' :: ds) n
  | minus {ds : List Char} {n : Nat} : SpellsNumber ds n → SpellsInteger ('-' :: ds) (-n)

theorem readDecimal?_eq_some_iff {ds : List Char} {n : Nat} :
    readDecimal? ds = some n ↔ SpellsNumber ds n := by
  unfold readDecimal?
  constructor
  · intro h
    split at h
    next hds => exact ⟨hds.1, List.all_eq_true.1 hds.2, Option.some.inj h⟩
    next => cases h
  · rintro ⟨hne, hdigit, rfl⟩
    exact if_pos ⟨hne, List.all_eq_true.2 hdigit⟩

theorem SpellsNumber.exists_isDigit {ds : List Char} {n : Nat} (h : SpellsNumber ds n) :
    ∃ c ∈ ds, c.isDigit := by
  obtain ⟨c, hc⟩ := List.exists_mem_of_ne_nil ds h.ne_nil
  exact ⟨c, hc, h.isDigit c hc⟩

theorem SpellsInteger.exists_isDigit {cs : List Char} {n : Int} (h : SpellsInteger cs n) :
    ∃ c ∈ cs, c.isDigit := by
  cases h with
  | plain hds => exact hds.exists_isDigit
  | plus hds | minus hds =>
    obtain ⟨c, hc, hdigit⟩ := hds.exists_isDigit
    exact ⟨c, List.mem_cons_of_mem _ hc, hdigit⟩

theorem SpellsInteger.mem {cs : List Char} {n : Int} (h : SpellsInteger cs n) {c : Char} (hc : c ∈ cs) :
    c = '+' ∨ c = '-' ∨ c.isDigit := by
  cases h with
  | plain hds => exact .inr (.inr (hds.isDigit c hc))
  | plus hds =>
    rcases List.mem_cons.1 hc with rfl | hc
    · exact .inl rfl
    · exact .inr (.inr (hds.isDigit c hc))
  | minus hds =>
    rcases List.mem_cons.1 hc with rfl | hc
    · exact .inr (.inl rfl)
    · exact .inr (.inr (hds.isDigit c hc))

theorem SpellsInteger.not_mem {cs : List Char} {n : Int} (h : SpellsInteger cs n) {c : Char}
    (hsign : (c == '+' || c == '-') = false) (hdigit : c.isDigit = false) : c ∉ cs := by
  intro hc
  rcases h.mem hc with rfl | rfl | hmem
  · cases hsign
  · cases hsign
  · rw [hdigit] at hmem
    cases hmem

theorem readInteger?_eq_some_iff {cs : List Char} {n : Int} :
    readInteger? cs = some n ↔ SpellsInteger cs n := by
  constructor
  · intro h
    unfold readInteger? at h
    split at h
    · obtain ⟨_, hcast, rfl⟩ := Option.map_eq_some_iff.1 h
      obtain ⟨m, hm, hsame⟩ := Option.bind_eq_some_iff.1 hcast
      cases hsame
      exact .minus (readDecimal?_eq_some_iff.1 hm)
    · obtain ⟨m, hm, rfl⟩ := Option.map_eq_some_iff.1 h
      exact .plus (readDecimal?_eq_some_iff.1 hm)
    · obtain ⟨m, hm, rfl⟩ := Option.map_eq_some_iff.1 h
      exact .plain (readDecimal?_eq_some_iff.1 hm)
  · intro h
    cases h with
    | @plain ds m hds =>
      obtain ⟨c, rest, rfl⟩ := List.exists_cons_of_ne_nil hds.ne_nil
      rw [readInteger?_of_digit (hds.isDigit c List.mem_cons_self), readDecimal?_eq_some_iff.2 hds]
      rfl
    | plus hds | minus hds =>
      rw [readInteger?, readDecimal?_eq_some_iff.2 hds]
      rfl

theorem spellsInteger_integer (n : Int) : SpellsInteger (integer n) n :=
  readInteger?_eq_some_iff.1 (readInteger?_integer n)

/-- Words of some width, as the integers of a range: a reader that refuses the integers outside of it. -/
theorem readRange_eq_some_iff {α : Type} {ofInt : Int → α} {toInt : α → Int} {least most : Int}
    (hto : ∀ n, least ≤ n → n ≤ most → toInt (ofInt n) = n) (hof : ∀ a, ofInt (toInt a) = a)
    (hrange : ∀ a, least ≤ toInt a ∧ toInt a ≤ most) {cs : List Char} {a : α} :
    ((readInteger? cs).bind fun n => if least ≤ n ∧ n ≤ most then some (ofInt n) else none) = some a ↔
      SpellsInteger cs (toInt a) := by
  rw [← readInteger?_eq_some_iff, Option.bind_eq_some_iff]
  constructor
  · rintro ⟨n, hn, h⟩
    split at h
    next hle =>
      obtain rfl := Option.some.inj h
      rw [hto n hle.1 hle.2]
      exact hn
    next => cases h
  · intro h
    exact ⟨toInt a, h, by rw [if_pos (hrange a), hof]⟩

theorem readInt32?_eq_some_iff {cs : List Char} {n : Int32} :
    readInt32? cs = some n ↔ SpellsInteger cs n.toInt :=
  readRange_eq_some_iff
    (fun _ hleast hmost => Int32.toInt_ofInt_of_le hleast (Int.lt_of_le_of_lt hmost (by decide)))
    Int32.ofInt_toInt fun n => ⟨n.minValue_le_toInt, n.toInt_le⟩

theorem readInt64?_eq_some_iff {cs : List Char} {n : Int64} :
    readInt64? cs = some n ↔ SpellsInteger cs n.toInt :=
  readRange_eq_some_iff
    (fun _ hleast hmost => Int64.toInt_ofInt_of_le hleast (Int.lt_of_le_of_lt hmost (by decide)))
    Int64.ofInt_toInt fun n => ⟨n.minValue_le_toInt, n.toInt_le⟩

/-! ### Bytes -/

structure IsHexDigit (c : Char) (d : Nat) : Prop where
  lt : d < 16
  eq : c = Nat.digitChar d ∨ c = (Nat.digitChar d).toUpper

/-- What the reader takes for the first digit of a byte. -/
def IsLeadDigit (c : Char) (d : Nat) : Prop :=
  IsHexDigit c d ∨ c = '+' ∧ d = 0

/-- Bytes spelled by pairs of a first digit of some kind and a hexadecimal digit. -/
inductive SpellsBytes (lead : Char → Nat → Prop) : List Char → List UInt8 → Prop
  | nil : SpellsBytes lead [] []
  | pair {a b : Char} {high low : Nat} {cs : List Char} {bytes : List UInt8} : lead a high →
      IsHexDigit b low → SpellsBytes lead cs bytes →
      SpellsBytes lead (a :: b :: cs) (UInt8.ofNat (16 * high + low) :: bytes)

theorem hexValue?_of_isHexDigit {c : Char} {d : Nat} (h : IsHexDigit c d) : hexValue? c = some d := by
  obtain ⟨hlt, rfl | rfl⟩ := h
  · exact hexValue?_digitChar hlt
  · interval_cases d <;> rfl

/-- The letters among the digits, by their code points. -/
theorem toNat_digitChar_letter {d : Nat} (h10 : 10 ≤ d) (h16 : d < 16) :
    (Nat.digitChar d).toNat = d + 87 ∧ (Nat.digitChar d).toUpper.toNat = d + 55 := by
  interval_cases d <;> decide

theorem isHexDigit_of_hexValue? {c : Char} {d : Nat} (h : hexValue? c = some d) : IsHexDigit c d := by
  unfold hexValue? at h
  split at h
  next hrange =>
    have hcode : 48 ≤ c.toNat ∧ c.toNat ≤ 57 := hrange
    have hd : c.toNat - 48 = d := Option.some.inj h
    refine ⟨by omega, .inl (Char.toNat_inj.1 ?_)⟩
    rw [Nat.toNat_digitChar_of_lt_ten (by omega)]
    omega
  next =>
    split at h
    next hrange =>
      have hcode : 97 ≤ c.toNat ∧ c.toNat ≤ 102 := hrange
      have hd : c.toNat - 97 + 10 = d := Option.some.inj h
      have hletter := toNat_digitChar_letter (show 10 ≤ d by omega) (by omega)
      exact ⟨by omega, .inl (Char.toNat_inj.1 (by omega))⟩
    next =>
      split at h
      next hrange =>
        have hcode : 65 ≤ c.toNat ∧ c.toNat ≤ 70 := hrange
        have hd : c.toNat - 65 + 10 = d := Option.some.inj h
        have hletter := toNat_digitChar_letter (show 10 ≤ d by omega) (by omega)
        exact ⟨by omega, .inr (Char.toNat_inj.1 (by omega))⟩
      next => cases h

theorem hexValue?_eq_some_iff {c : Char} {d : Nat} : hexValue? c = some d ↔ IsHexDigit c d :=
  ⟨isHexDigit_of_hexValue?, hexValue?_of_isHexDigit⟩

theorem IsHexDigit.ne_plus {c : Char} {d : Nat} (h : IsHexDigit c d) : c ≠ '+' := by
  rintro rfl
  cases hexValue?_of_isHexDigit h

theorem readHexPair?_eq_some_iff {a b : Char} {byte : UInt8} :
    readHexPair? a b = some byte ↔
      ∃ high low, IsLeadDigit a high ∧ IsHexDigit b low ∧ UInt8.ofNat (16 * high + low) = byte := by
  unfold readHexPair?
  split
  next hplus =>
    simp only [Option.map_eq_some_iff, hexValue?_eq_some_iff]
    constructor
    · rintro ⟨low, hlow, rfl⟩
      exact ⟨0, low, .inr ⟨hplus, rfl⟩, hlow, by rw [Nat.mul_zero, Nat.zero_add]⟩
    · rintro ⟨high, low, hhigh | ⟨-, rfl⟩, hlow, rfl⟩
      · exact absurd hplus hhigh.ne_plus
      · exact ⟨low, hlow, by rw [Nat.mul_zero, Nat.zero_add]⟩
  next hplus =>
    simp only [Option.bind_eq_bind, Option.bind_eq_some_iff, hexValue?_eq_some_iff, Option.some.injEq]
    constructor
    · rintro ⟨high, hhigh, low, hlow, hbyte⟩
      exact ⟨high, low, .inl hhigh, hlow, hbyte⟩
    · rintro ⟨high, low, hhigh | ⟨hsign, -⟩, hlow, hbyte⟩
      · exact ⟨high, hhigh, low, hlow, hbyte⟩
      · exact absurd hsign hplus

theorem readHexBytes?_eq_some_iff {cs : List Char} {bytes : List UInt8} :
    readHexBytes? cs = some bytes ↔ SpellsBytes IsLeadDigit cs bytes := by
  fun_induction readHexBytes? cs generalizing bytes with
  | case1 =>
    constructor
    · rintro ⟨⟩
      exact .nil
    · rintro ⟨⟩
      rfl
  | case2 c =>
    constructor
    · rintro ⟨⟩
    · rintro ⟨⟩
  | case3 a b cs ih =>
    simp only [Option.bind_eq_bind, Option.bind_eq_some_iff, readHexPair?_eq_some_iff, ih,
      Option.some.injEq]
    constructor
    · rintro ⟨_, ⟨high, low, hhigh, hlow, rfl⟩, rest, hrest, rfl⟩
      exact .pair hhigh hlow hrest
    · rintro (_ | ⟨hhigh, hlow, hrest⟩)
      exact ⟨_, ⟨_, _, hhigh, hlow, rfl⟩, _, hrest, rfl⟩

/-- The texts in which every byte has two digits are those without a plus sign. -/
theorem spellsBytes_isHexDigit_iff {cs : List Char} {bytes : List UInt8} :
    SpellsBytes IsHexDigit cs bytes ↔ SpellsBytes IsLeadDigit cs bytes ∧ '+' ∉ cs := by
  constructor
  · intro h
    induction h with
    | nil => exact ⟨.nil, List.not_mem_nil⟩
    | pair hhigh hlow _ ih =>
      refine ⟨.pair (.inl hhigh) hlow ih.1, fun hplus => ?_⟩
      rcases List.mem_cons.1 hplus with hplus | hplus
      · exact hhigh.ne_plus hplus.symm
      · rcases List.mem_cons.1 hplus with hplus | hplus
        · exact hlow.ne_plus hplus.symm
        · exact ih.2 hplus
  · rintro ⟨h, hplus⟩
    induction h with
    | nil => exact .nil
    | pair hhigh hlow _ ih =>
      rw [List.mem_cons, List.mem_cons, not_or, not_or] at hplus
      rcases hhigh with hhigh | ⟨hsign, -⟩
      · exact .pair hhigh hlow (ih hplus.2.2)
      · exact absurd hsign.symm hplus.1

end TableClient.Text
