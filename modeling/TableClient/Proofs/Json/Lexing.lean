import TableClient.Json.Document
import TableClient.Proofs.Text.Digits

/-! Written JSON is taken apart into the tokens that it was put together from. A string comes back whatever
its characters are, and a number comes back by its parts, if what follows cannot continue it. -/

namespace TableClient.Json

/-! ### Strings -/

theorem readUnit_hexFixed (n : Nat) (rest : List Char) :
    readUnit (Text.hexFixed 4 n ++ rest) = some (n % 16 ^ 4, rest) := by
  have hread : Text.readHex? (Text.hexFixed 4 n) = some (n % 16 ^ 4) := by
    rw [Text.readHex?, Text.readHexFrom_hexFixed, Nat.zero_mul, Nat.zero_add]
    rfl
  have hfour : Text.hexFixed 4 n = [Nat.digitChar (n / 16 / 16 / 16 % 16),
      Nat.digitChar (n / 16 / 16 % 16), Nat.digitChar (n / 16 % 16), Nat.digitChar (n % 16)] := rfl
  rw [hfour] at hread ⊢
  simp only [List.cons_append, List.nil_append, readUnit, hread, Option.map_some]

/-- A character below the surrogates is no part of a pair of them. -/
theorem readUnicode_hexFixed {c : Char} (h : c.toNat < 0xd800) (rest : List Char) :
    readUnicode (Text.hexFixed 4 c.toNat ++ rest) = some (some c, rest) := by
  have hunit : c.toNat % 16 ^ 4 = c.toNat := Nat.mod_eq_of_lt (by omega)
  have hhigh : isHighSurrogate c.toNat = false := by
    simp only [isHighSurrogate, Bool.and_eq_false_iff, decide_eq_false_iff_not]
    omega
  have hlow : isLowSurrogate c.toNat = false := by
    simp only [isLowSurrogate, Bool.and_eq_false_iff, decide_eq_false_iff_not]
    omega
  rw [readUnicode, readUnit_hexFixed, hunit]
  simp [hhigh, hlow, Char.ofNat_toNat]

/-- A character stands in a string as a short escape, as its number, or as it is. -/
inductive Escaped (c : Char) : List Char → Prop
  | short {e : Char} : e ≠ 'u' → shortEscape? e = some c → Escaped c ['\\', e]
  | number : c.toNat < 0xd800 → Escaped c ('\\' :: 'u' :: Text.hexFixed 4 c.toNat)
  | plain : c ≠ '"' → c ≠ '\\' → ¬c.toNat < 0x20 → Escaped c [c]

theorem escaped_escapeChar (c : Char) : Escaped c (escapeChar c) := by
  unfold escapeChar
  split
  next h => exact .short (by decide) (by rw [h]; rfl)
  next hquote =>
    split
    next h => exact .short (by decide) (by rw [h]; rfl)
    next hbackslash =>
      split
      next h => exact .short (by decide) (by rw [h]; rfl)
      split
      next h => exact .short (by decide) (by rw [h]; rfl)
      split
      next h => exact .short (by decide) (by rw [h]; rfl)
      split
      next h => exact .short (by decide) (by rw [h]; rfl)
      split
      next h => exact .short (by decide) (by rw [h]; rfl)
      split
      next h => exact .number (by omega)
      next h => exact .plain hquote hbackslash h

theorem Escaped.readString_append {c : Char} {escaped : List Char} (h : Escaped c escaped) (fuel : Nat)
    (cs : List Char) : readString (fuel + 1) (escaped ++ cs) =
      (readString fuel cs).map fun (text, rest) => (text.map (c :: ·), rest) := by
  cases h with
  | short hne he =>
    rw [List.cons_append, List.cons_append, List.nil_append, readString]
    · rw [he]
      cases readString fuel cs <;> rfl
    · exact hne
  | number hbelow =>
    simp only [List.cons_append, readString, readUnicode_hexFixed hbelow, Option.bind_eq_bind,
      Option.bind_some]
    cases readString fuel cs with
    | none => rfl
    | some p =>
      obtain ⟨text, rest⟩ := p
      cases text <;> rfl
  | plain hquote hbackslash hprints =>
    rw [List.cons_append, List.nil_append, readString]
    · rw [if_neg (not_or.2 ⟨hbackslash, hprints⟩)]
      cases readString fuel cs <;> rfl
    · exact hquote
    · exact fun _ heq _ => hbackslash heq
    · exact fun _ _ heq _ => hbackslash heq

theorem Escaped.one_le_length {c : Char} {escaped : List Char} (h : Escaped c escaped) :
    1 ≤ escaped.length := by
  cases h <;> simp

section Strings

variable {escape : Char → List Char} (hescape : ∀ c, Escaped c (escape c))
include hescape

/-- A written string is read up to the quote that closes it. -/
theorem readString_flatMap {fuel : Nat} {cs : List Char} (h : cs.length < fuel) (rest : List Char) :
    readString fuel (cs.flatMap escape ++ '"' :: rest) = some (some cs, rest) := by
  induction cs generalizing fuel with
  | nil =>
    obtain ⟨fuel, rfl⟩ := Nat.exists_eq_add_one_of_ne_zero (Nat.ne_of_gt h)
    rfl
  | cons c cs ih =>
    obtain ⟨fuel, rfl⟩ := Nat.exists_eq_add_one_of_ne_zero (Nat.ne_of_gt (Nat.zero_lt_of_lt h))
    rw [List.flatMap_cons, List.append_assoc, (hescape c).readString_append,
      ih (Nat.lt_of_succ_lt_succ h)]
    rfl

theorem length_le_flatMap (cs : List Char) : cs.length ≤ (cs.flatMap escape).length := by
  induction cs with
  | nil => exact Nat.le_refl 0
  | cons c cs ih =>
    have hone : 1 ≤ (escape c).length := (hescape c).one_le_length
    rw [List.flatMap_cons, List.length_append, List.length_cons]
    omega

end Strings

/-! ### Numbers -/

def fractionChars : Option (List Char) → List Char
  | none => []
  | some ds => '.' :: ds

/-- An exponent always has its sign. -/
def exponentChars : Option Int → List Char
  | none => []
  | some e => 'e' :: (if e < 0 then '-' else '+') :: Text.decimal e.natAbs

def NumberText.chars (t : NumberText) : List Char :=
  (if t.negative then ['-'] else []) ++ (t.whole ++ (fractionChars t.fraction ++ exponentChars t.exponent))

/-- Both parts are digits, at least one each, and the whole part has no zero before others. -/
structure NumberText.IsPlain (t : NumberText) : Prop where
  whole : ∀ c ∈ t.whole, c.isDigit
  whole_ne_nil : t.whole ≠ []
  leading : t.whole = ['0'] ∨ t.whole.head? ≠ some '0'
  fraction : ∀ ds ∈ t.fraction, ds ≠ [] ∧ ∀ c ∈ ds, c.isDigit

/-- A text that can follow a number without continuing it. -/
def Stops (rest : List Char) : Prop :=
  ∀ c ∈ rest.head?, c.isDigit = false ∧ c ≠ '.' ∧ c ≠ 'e' ∧ c ≠ 'E'

theorem stops_nil : Stops [] := nofun

theorem stops_cons {c : Char} (h : c.isDigit = false ∧ c ≠ '.' ∧ c ≠ 'e' ∧ c ≠ 'E')
    (rest : List Char) : Stops (c :: rest) := by
  rintro _ ⟨⟩
  exact h

variable {ds rest : List Char}

theorem spanDigits_append (hd : ∀ c ∈ ds, c.isDigit) (h : ∀ c ∈ rest.head?, c.isDigit = false) :
    spanDigits (ds ++ rest) = (ds, rest) := by
  rw [spanDigits, List.takeWhile_append_of_pos hd, List.dropWhile_append_of_pos hd]
  cases rest with
  | nil => simp
  | cons c rest => simp [h c rfl]

theorem readDigits_append (hne : ds ≠ []) (hd : ∀ c ∈ ds, c.isDigit)
    (h : ∀ c ∈ rest.head?, c.isDigit = false) : readDigits (ds ++ rest) = some (ds, rest) := by
  rw [readDigits, spanDigits_append hd h]
  exact if_neg hne

theorem readWhole_append (hne : ds ≠ []) (hd : ∀ c ∈ ds, c.isDigit)
    (hlead : ds = ['0'] ∨ ds.head? ≠ some '0') (h : ∀ c ∈ rest.head?, c.isDigit = false) :
    readWhole (ds ++ rest) = some (ds, rest) := by
  rcases hlead with rfl | hlead
  · rfl
  · obtain ⟨d, ds, rfl⟩ := List.exists_cons_of_ne_nil hne
    rw [List.cons_append, readWhole]
    · exact readDigits_append hne hd h
    · rintro cs ⟨⟩
      exact hlead rfl

theorem readFractionPart_append {fraction : Option (List Char)}
    (hf : ∀ ds ∈ fraction, ds ≠ [] ∧ ∀ c ∈ ds, c.isDigit)
    (h : ∀ c ∈ rest.head?, c.isDigit = false ∧ c ≠ '.') :
    readFractionPart (fractionChars fraction ++ rest) = some (fraction, rest) := by
  cases fraction with
  | none =>
    cases rest with
    | nil => rfl
    | cons c rest =>
      rw [fractionChars, List.nil_append, readFractionPart]
      rintro cs ⟨⟩
      exact (h _ rfl).2 rfl
  | some ds =>
    obtain ⟨hne, hd⟩ := hf ds rfl
    rw [fractionChars, List.cons_append, readFractionPart,
      readDigits_append hne hd fun c hc => (h c hc).1]
    rfl

theorem readExponentPart_append (exponent : Option Int) (h : Stops rest) :
    readExponentPart (exponentChars exponent ++ rest) = some (exponent, rest) := by
  cases exponent with
  | none =>
    cases rest with
    | nil => rfl
    | cons c rest =>
      obtain ⟨-, -, he, hE⟩ := h c rfl
      exact if_neg (not_or.2 ⟨he, hE⟩)
  | some e =>
    have hdigits : readDigits (Text.decimal e.natAbs ++ rest) = some (Text.decimal e.natAbs, rest) :=
      readDigits_append (Text.decimal_ne_nil _) (fun _ => Text.isDigit_of_mem_decimal) fun c hc => (h c hc).1
    have hvalue : Nat.ofDigitChars 10 (Text.decimal e.natAbs) 0 = e.natAbs :=
      Nat.ofDigitChars_toDigits (by decide) (by decide)
    rw [exponentChars, List.cons_append, List.cons_append]
    by_cases hneg : e < 0
    · have hback : -1 * (e.natAbs : Int) = e := by omega
      simp only [readExponentPart, hneg, if_true, true_or, hdigits, Option.map_some, hvalue, hback]
    · have hback : 1 * (e.natAbs : Int) = e := by omega
      simp only [readExponentPart, hneg, if_true, if_false, true_or, hdigits, Option.map_some, hvalue, hback]

theorem head_exponentChars (exponent : Option Int) (h : Stops rest) :
    ∀ c ∈ (exponentChars exponent ++ rest).head?, c.isDigit = false ∧ c ≠ '.' := by
  cases exponent with
  | none => exact fun c hc => ⟨(h c hc).1, (h c hc).2.1⟩
  | some e =>
    rintro c ⟨⟩
    decide

theorem head_fractionChars (fraction : Option (List Char)) (exponent : Option Int) (h : Stops rest) :
    ∀ c ∈ (fractionChars fraction ++ (exponentChars exponent ++ rest)).head?, c.isDigit = false := by
  cases fraction with
  | none => exact fun c hc => (head_exponentChars exponent h c hc).1
  | some ds =>
    rintro c ⟨⟩
    decide

/-- A written number is read by its parts. -/
theorem readNumber_chars {t : NumberText} (ht : t.IsPlain) (h : Stops rest) :
    readNumber (t.chars ++ rest) = some (t, rest) := by
  obtain ⟨negative, whole, fraction, exponent⟩ := t
  have hexponent := readExponentPart_append exponent h
  have hfraction := readFractionPart_append ht.fraction (head_exponentChars exponent h)
  have hwhole := readWhole_append ht.whole_ne_nil ht.whole ht.leading
    (head_fractionChars fraction exponent h)
  dsimp only at hfraction hwhole
  cases negative with
  | true => simp [NumberText.chars, readNumber, hwhole, hfraction, hexponent]
  | false =>
    obtain ⟨c, cs, hcs⟩ := List.exists_cons_of_ne_nil ht.whole_ne_nil
    dsimp only at hcs
    have hminus : c ≠ '-' := by
      rintro rfl
      exact absurd (ht.whole '-' (by simp [hcs])) (by decide)
    rw [hcs, List.cons_append] at hwhole
    simp only [NumberText.chars, readNumber, hcs, Bool.false_eq_true, if_false, List.nil_append,
      List.cons_append, List.append_assoc]
    split
    next heq => exact absurd (List.cons.inj heq).1 hminus
    next => simp [hwhole, hfraction, hexponent]

/-! ### Tokens -/

/-- A text that is read as certain tokens, whatever follows that does not continue the last one. -/
def Lexes (cs : List Char) (ts : List Token) : Prop :=
  ts.length ≤ cs.length ∧ ∀ fuel rest, Stops rest →
    tokensWithin (ts.length + fuel) (cs ++ rest) = (tokensWithin fuel rest).map (ts ++ ·)

variable {cs ds : List Char} {ts us : List Token}

theorem tokensWithin_spaces {fuel : Nat} {spaces : List Char} (h : ∀ c ∈ spaces, isSpace c)
    (hfuel : spaces.length ≤ fuel) : tokensWithin fuel spaces = some [] := by
  induction spaces generalizing fuel with
  | nil => cases fuel <;> rfl
  | cons c spaces ih =>
    obtain ⟨hc, hspaces⟩ := List.forall_mem_cons.1 h
    obtain ⟨fuel, rfl⟩ := Nat.exists_eq_add_one_of_ne_zero (Nat.ne_of_gt (Nat.zero_lt_of_lt hfuel))
    rw [tokensWithin, if_pos hc, ih hspaces (Nat.le_of_succ_le_succ hfuel)]

theorem stops_spaces {spaces : List Char} (h : ∀ c ∈ spaces, isSpace c) : Stops spaces := by
  intro c hc
  have hspace := h c (List.mem_of_mem_head? hc)
  simp only [isSpace, Bool.or_eq_true, decide_eq_true_eq] at hspace
  rcases hspace with ((rfl | rfl) | rfl) | rfl <;> decide

/-- Nothing but spaces may follow. -/
theorem Lexes.tokens?_eq (h : Lexes cs ts) {spaces : List Char} (hspaces : ∀ c ∈ spaces, isSpace c) :
    tokens? (cs ++ spaces) = some ts := by
  obtain ⟨fuel, hfuel⟩ := Nat.exists_eq_add_of_le h.1
  rw [tokens?, List.length_append, hfuel, Nat.add_assoc, h.2 _ _ (stops_spaces hspaces),
    tokensWithin_spaces hspaces (Nat.le_add_left _ _), Option.map_some, List.append_nil]

theorem Lexes.nil : Lexes [] [] :=
  ⟨Nat.le_refl 0, fun fuel rest _ => by simp⟩

theorem Lexes.append (h : Lexes cs ts) (hd : Lexes ds us) (hne : ds ≠ []) (hstops : Stops ds) :
    Lexes (cs ++ ds) (ts ++ us) := by
  refine ⟨by simpa using Nat.add_le_add h.1 hd.1, fun fuel rest hrest => ?_⟩
  have hnext : Stops (ds ++ rest) := by
    obtain ⟨d, ds, rfl⟩ := List.exists_cons_of_ne_nil hne
    exact fun c hc => hstops c hc
  rw [List.append_assoc, List.length_append, Nat.add_assoc, h.2 _ _ hnext, hd.2 _ _ hrest, Option.map_map]
  congr 1
  funext more
  exact (List.append_assoc ts us more).symm

theorem tokensWithin_cons {c : Char} {t : Token} {fuel : Nat} (hspace : isSpace c = false)
    (ht : readToken c cs = some (t, rest)) :
    tokensWithin (fuel + 1) (c :: cs) = (tokensWithin fuel rest).map (t :: ·) := by
  rw [tokensWithin, hspace, if_neg Bool.false_ne_true, ht]
  show (tokensWithin fuel rest >>= fun ts => some (t :: ts)) = _
  cases tokensWithin fuel rest <;> rfl

/-- A text that is one token. -/
theorem Lexes.single {c : Char} {t : Token} (hspace : isSpace c = false)
    (ht : ∀ rest, Stops rest → readToken c (cs ++ rest) = some (t, rest)) : Lexes (c :: cs) [t] := by
  refine ⟨by simp, fun fuel rest hrest => ?_⟩
  rw [List.length_singleton, Nat.add_comm, List.cons_append, tokensWithin_cons hspace (ht rest hrest)]
  rfl

/-- A token of one character that is complete as it is. -/
theorem Lexes.cons {c : Char} {t : Token} (hspace : isSpace c = false)
    (ht : ∀ rest, readToken c rest = some (t, rest)) (h : Lexes cs ts) : Lexes (c :: cs) (t :: ts) := by
  refine ⟨Nat.succ_le_succ h.1, fun fuel rest hrest => ?_⟩
  rw [List.length_cons, Nat.add_right_comm, List.cons_append, tokensWithin_cons hspace (ht _),
    h.2 fuel rest hrest, Option.map_map]
  rfl

/-- A string between quotes is one token. -/
theorem lexes_string {escape : Char → List Char} (hescape : ∀ c, Escaped c (escape c)) (s : String) :
    Lexes ('"' :: (s.toList.flatMap escape ++ ['"'])) [.string (some s)] := by
  refine Lexes.single rfl fun rest _ => ?_
  have hlength : s.toList.length < (s.toList.flatMap escape ++ '"' :: rest).length + 1 := by
    have := length_le_flatMap hescape s.toList
    simp only [List.length_append]
    omega
  rw [List.append_assoc, List.singleton_append]
  show (readString ((s.toList.flatMap escape ++ '"' :: rest).length + 1)
    (s.toList.flatMap escape ++ '"' :: rest)).map _ = _
  rw [readString_flatMap hescape hlength]
  simp

theorem lexes_quoted (s : String) : Lexes (quoted s) [.string (some s)] :=
  lexes_string escaped_escapeChar s

/-- What begins like a number is read as one. -/
theorem readToken_number {c : Char} (h : c = '-' ∨ c.isDigit) :
    readToken c cs = (readNumber (c :: cs)).map fun (text, cs) => (.number text, cs) := by
  unfold readToken
  split
  case h_11 => rfl
  all_goals exact absurd h (by decide)

theorem lexes_chars {t : NumberText} (ht : t.IsPlain) : Lexes t.chars [.number t] := by
  obtain ⟨c, cs, hcs, hc⟩ : ∃ c cs, t.chars = c :: cs ∧ (c = '-' ∨ c.isDigit) := by
    rw [NumberText.chars]
    cases t.negative with
    | true => exact ⟨_, _, rfl, .inl rfl⟩
    | false =>
      obtain ⟨c, cs, hcs⟩ := List.exists_cons_of_ne_nil ht.whole_ne_nil
      exact ⟨c, _, by rw [hcs]; rfl, .inr (ht.whole c (hcs ▸ List.mem_cons_self))⟩
  have hspace : isSpace c = false := by
    rw [Bool.eq_false_iff]
    intro hspace
    simp only [isSpace, Bool.or_eq_true, decide_eq_true_eq] at hspace
    rcases hspace with ((rfl | rfl) | rfl) | rfl <;> exact absurd hc (by decide)
  rw [hcs]
  refine Lexes.single hspace fun rest hrest => ?_
  rw [readToken_number hc, ← List.cons_append, ← hcs, readNumber_chars ht hrest]
  rfl

end TableClient.Json
