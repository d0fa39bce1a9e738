import TableClient.Proofs.Filter.Word
import TableClient.Proofs.Guid
import TableClient.Proofs.Instant.RoundTrip
import TableClient.Proofs.Text.Spelling

/-! Round trip of literals. A literal between quotes is told from the others by its mark, which is
all that stands before the first quote; the bare ones by their characters. Every literal is one word
of a filter text, whatever its content. -/

namespace TableClient

/-- The values whose literals read back: scalars other than doubles, and moments of a year of four digits
that are no leap second within a minute. -/
inductive Value.IsLiteral : Value → Prop
  | string (s : String) : IsLiteral (.string s)
  | binary (bytes : List UInt8) : IsLiteral (.binary bytes)
  | bool (b : Bool) : IsLiteral (.bool b)
  | int32 (n : Int32) : IsLiteral (.int32 n)
  | int64 (n : Int64) : IsLiteral (.int64 n)
  | guid (g : Guid) : IsLiteral (.guid g)
  | dateTime {t : Instant} : 0 ≤ t.date.year → t.date.year ≤ 9999 → t.IsOnClock → IsLiteral (.dateTime t)

/-- The kinds of value that have a literal, doubles left aside. -/
def ValueKind.hasLiteral : ValueKind → Bool
  | .bool | .int32 | .int64 | .string | .binary | .guid | .dateTime => true
  | _ => false

/-- A moment of a year that does not have four digits. -/
def Value.isRemote : Value → Bool
  | .dateTime t => !(0 ≤ t.date.year && t.date.year ≤ 9999)
  | _ => false

namespace Literal

open TableClient.Filter (IsWord IsRun isWordChar isKeyword keywords)

/-- A word of a filter text that stands for a value. -/
structure Spells (text : String) (v : Value) : Prop where
  isWord : IsWord text.toList
  read? : Literal.read? text.toList = some v

/-! ### Marks -/

theorem toList_marked (mark : String) (body : List Char) :
    (marked mark body).toList = mark.toList ++ '\x27' :: (body ++ ['\x27']) := by
  simp [marked]

theorem body?_eq_some_iff {mark : String} {text body : List Char} :
    body? mark text = some body ↔ text = mark.toList ++ '\x27' :: (body ++ ['\x27']) := by
  simp [body?, Option.bind_eq_some_iff, Text.dropLead_eq_some_iff, Text.dropFinal_eq_some_iff]

theorem body?_marked (mark : String) (body : List Char) :
    body? mark (marked mark body).toList = some body :=
  body?_eq_some_iff.2 (toList_marked mark body)

/-- The mark is what stands before the first quote. -/
theorem takeWhile_marked {mark : List Char} (h : IsRun mark) (rest : List Char) :
    (mark ++ '\x27' :: rest).takeWhile (· ≠ '\x27') = mark := by
  rw [List.takeWhile_append_of_pos fun c hc => by simpa using Filter.ne_quote (h c hc)]
  simp

theorem body?_marked_of_ne {mark other : String} (h : IsRun mark.toList)
    (ho : IsRun other.toList) (hne : other ≠ mark) (body : List Char) :
    body? other (marked mark body).toList = none := by
  refine Option.eq_none_iff_forall_ne_some.2 fun inner hinner => hne ?_
  rw [body?_eq_some_iff, toList_marked] at hinner
  have hmarks := congrArg (List.takeWhile (· ≠ '\x27')) hinner
  rw [takeWhile_marked h, takeWhile_marked ho] at hmarks
  exact String.toList_inj.1 hmarks.symm

theorem body?_of_not_mem {cs : List Char} (h : '\x27' ∉ cs) (mark : String) :
    body? mark cs = none := by
  refine Option.eq_none_iff_forall_ne_some.2 fun inner hinner => h ?_
  rw [body?_eq_some_iff.1 hinner]
  simp

theorem read?_of_not_mem {cs : List Char} (h : '\x27' ∉ cs) : read? cs = readBare? cs := by
  simp [read?, body?_of_not_mem h]

theorem doubleQuotes_eq_self {body : List Char} (h : '\x27' ∉ body) : doubleQuotes body = body := by
  induction body with
  | nil => rfl
  | cons c cs ih =>
    rw [List.mem_cons, not_or] at h
    rw [doubleQuotes, if_neg (Ne.symm h.1), ih h.2]

theorem isWord_marked {mark : String} (h : IsRun mark.toList) {body : List Char}
    (hb : '\x27' ∉ body) : IsWord (marked mark body).toList := by
  rw [toList_marked]
  have hword := IsWord.quoted body h
  rwa [doubleQuotes_eq_self hb] at hword

/-! ### Literals between quotes -/

theorem isRun_empty : IsRun "".toList := by decide

theorem isRun_X : IsRun "X".toList := by decide

theorem isRun_binary : IsRun "binary".toList := by decide

theorem isRun_guid : IsRun "guid".toList := by decide

theorem isRun_datetime : IsRun "datetime".toList := by decide

/-- A body between quotes without a mark is read as a text. -/
theorem read?_marked_empty (body : List Char) :
    read? (marked "" body).toList = (undoubleQuotes body).map fun s => .string (String.ofList s) := by
  rw [read?, body?_marked]

/-- Bytes have two marks. -/
theorem read?_marked_binary {mark : String} (h : mark = "X" ∨ mark = "binary") (body : List Char) :
    read? (marked mark body).toList = (Text.readHexBytes? body).map .binary := by
  rcases h with rfl | rfl
  · rw [read?, body?_marked_of_ne isRun_X isRun_empty (by decide), body?_marked]
    rfl
  · rw [read?, body?_marked_of_ne isRun_binary isRun_empty (by decide),
      body?_marked_of_ne isRun_binary isRun_X (by decide), body?_marked]
    rfl

theorem read?_marked_guid (body : List Char) :
    read? (marked "guid" body).toList = (Guid.read? body).map .guid := by
  rw [read?, body?_marked_of_ne isRun_guid isRun_empty (by decide),
    body?_marked_of_ne isRun_guid isRun_X (by decide),
    body?_marked_of_ne isRun_guid isRun_binary (by decide), body?_marked]
  rfl

/-- A body after the mark of moments is read as a moment. -/
theorem read?_marked_datetime (body : List Char) :
    read? (marked "datetime" body).toList = (Instant.read? body).map .dateTime := by
  rw [read?, body?_marked_of_ne isRun_datetime isRun_empty (by decide),
    body?_marked_of_ne isRun_datetime isRun_X (by decide),
    body?_marked_of_ne isRun_datetime isRun_binary (by decide),
    body?_marked_of_ne isRun_datetime isRun_guid (by decide), body?_marked]
  rfl

theorem spells_string (s : String) : Spells (marked "" (doubleQuotes s.toList)) (.string s) where
  isWord := by
    rw [toList_marked]
    exact .quoted s.toList isRun_empty
  read? := by
    rw [read?_marked_empty, undoubleQuotes_doubleQuotes, Option.map_some, String.ofList_toList]

theorem ne_quote_of_mem_hex {c : Char} (h : ∃ d < 16, c = Nat.digitChar d) : c ≠ '\x27' :=
  Text.ne_of_mem_hex h rfl

theorem ne_quote_of_isDigit {c : Char} (h : c.isDigit) : c ≠ '\x27' := by
  rintro rfl
  exact absurd h (by decide)

theorem quote_not_mem_hexBytes (bytes : List UInt8) : '\x27' ∉ Text.hexBytes bytes :=
  fun h => ne_quote_of_mem_hex (Text.mem_hexBytes h) rfl

theorem quote_not_mem_hyphenated (g : Guid) : '\x27' ∉ g.hyphenated := by
  intro h
  rcases Guid.mem_hyphenate h with h | h
  · exact absurd h (by decide)
  · exact ne_quote_of_mem_hex (Text.mem_hexFixed h) rfl

theorem quote_not_mem_decimalPadded (width n : Nat) : '\x27' ∉ Text.decimalPadded width n :=
  fun h => ne_quote_of_isDigit (Text.isDigit_of_mem_decimalPadded h) rfl

theorem quote_not_mem_zuluText (t : Instant) : '\x27' ∉ t.zuluText := by
  have hyear : '\x27' ∉ Instant.yearText t.date.year := by
    unfold Instant.yearText
    split
    · exact quote_not_mem_decimalPadded _ _
    · split <;> simp [quote_not_mem_decimalPadded]
  have hfraction : '\x27' ∉ Instant.fractionText (t.nanos % 1000000000) := by
    unfold Instant.fractionText
    split
    · simp
    · split
      · simp [quote_not_mem_decimalPadded]
      · split <;> simp [quote_not_mem_decimalPadded]
  simp [Instant.zuluText, Instant.localText, Instant.dateText, Instant.clockText, hyear, hfraction,
    quote_not_mem_decimalPadded]

/-- The plain text of a double has nothing but digits, a point and a sign in it. -/
theorem mem_plain_finite {x : Binary64} {c : Char} (h : c ∈ Binary64.plain.finite x) :
    c.isDigit ∨ c = '.' ∨ c = '-' := by
  have hpointed {ds : List Char} {point : Int} (hds : ∀ d ∈ ds, d.isDigit)
      (h : c ∈ Binary64.plain.pointed ds point) : c.isDigit ∨ c = '.' := by
    have hzero {n : Nat} (h : c ∈ List.replicate n '0') : c.isDigit := by
      rw [List.eq_of_mem_replicate h]
      rfl
    unfold Binary64.DigitLayout.pointed at h
    split at h
    · rcases List.mem_cons.1 h with rfl | h
      · exact .inl rfl
      · rcases List.mem_cons.1 h with rfl | h
        · exact .inr rfl
        · exact .inl ((List.mem_append.1 h).elim hzero (hds c))
    · split at h
      · rcases List.mem_append.1 h with h | h
        · exact .inl ((List.mem_append.1 h).elim (hds c) hzero)
        · cases h
      · rcases List.mem_append.1 h with h | h
        · exact .inl (hds c (List.mem_of_mem_take h))
        · rcases List.mem_cons.1 h with rfl | h
          · exact .inr rfl
          · exact .inl (hds c (List.mem_of_mem_drop h))
  have hdigits (h : c ∈ Binary64.plain.digits x) : c.isDigit ∨ c = '.' := by
    unfold Binary64.DigitLayout.digits at h
    split at h
    · exact hpointed (by simp) h
    · refine hpointed ?_ h
      intro d hd
      have hdecimal : d ∈ Text.decimal (x.shortest Binary64.plain.tie).digits :=
        List.mem_reverse.1 ((List.dropWhile_sublist _).subset (List.mem_reverse.1 hd))
      exact Text.isDigit_of_mem_decimal hdecimal
  unfold Binary64.DigitLayout.finite at h
  split at h
  · rcases List.mem_cons.1 h with rfl | h
    · exact .inr (.inr rfl)
    · exact (hdigits h).imp_right .inl
  · exact (hdigits h).imp_right .inl

theorem quote_not_mem_doubleText (x : Binary64) : '\x27' ∉ doubleText x := by
  have hplain : '\x27' ∉ Binary64.plain.finite x := by
    intro h
    rcases mem_plain_finite h with hdigit | heq | heq
    · exact ne_quote_of_isDigit hdigit rfl
    · cases heq
    · cases heq
  rw [doubleText]
  split
  · exact hplain
  · simp [hplain]

theorem spells_binary (bytes : List UInt8) :
    Spells (marked "X" (Text.hexBytes bytes)) (.binary bytes) where
  isWord := isWord_marked isRun_X (quote_not_mem_hexBytes bytes)
  read? := by rw [read?_marked_binary (.inl rfl), Text.readHexBytes?_hexBytes, Option.map_some]

theorem spells_guid (g : Guid) : Spells (marked "guid" g.hyphenated) (.guid g) where
  isWord := isWord_marked isRun_guid (quote_not_mem_hyphenated g)
  read? := by rw [read?_marked_guid, Guid.read?_hyphenated, Option.map_some]

theorem spells_dateTime {t : Instant} (h0 : 0 ≤ t.date.year) (h1 : t.date.year ≤ 9999) :
    Spells (marked "datetime" t.zuluText) (.dateTime t.carried) where
  isWord := isWord_marked isRun_datetime (quote_not_mem_zuluText t)
  read? := by rw [read?_marked_datetime, Instant.read?_zuluText t h0 h1, Option.map_some]

/-! ### Bare literals -/

theorem isWordChar_of_isDigit {c : Char} (h : c.isDigit) : isWordChar c := by
  have hrange : 48 ≤ c.toNat ∧ c.toNat ≤ 57 := Char.isDigit_iff_toNat.1 h
  have hne {d : Char} (hd : d.isDigit = false) : c ≠ d := by
    rintro rfl
    simp [hd] at h
  refine Filter.isWordChar_iff.2 ⟨?_, hne (by decide), hne (by decide), hne (by decide)⟩
  simp [Text.isBlank]
  omega

/-- No keyword has a digit in it. -/
theorem isKeyword_of_isDigit {cs : List Char} {c : Char} (hc : c ∈ cs) (h : c.isDigit) :
    isKeyword cs = false := by
  have hnone : keywords.all (fun word => !word.toList.any Char.isDigit) := by decide
  rw [isKeyword, ← Bool.not_eq_true, List.contains_iff_mem]
  intro hmem
  have hdigit : (String.ofList cs).toList.any Char.isDigit :=
    List.any_eq_true.2 ⟨c, by simpa using hc, h⟩
  have hword := List.all_eq_true.1 hnone _ hmem
  rw [hdigit] at hword
  exact Bool.false_ne_true hword

theorem spells_bool (b : Bool) : Spells (if b then "true" else "false") (.bool b) where
  isWord := by
    cases b <;> exact .bare (by decide) (by decide) (by decide)
  read? := by cases b <;> rfl

/-- A text that has a digit in it and is a word, but none of the literals of another kind. -/
structure IsBareInteger (cs : List Char) : Prop where
  isWord : IsWord cs
  quote_not_mem : '\x27' ∉ cs
  ne_true : cs ≠ "true".toList
  ne_false : cs ≠ "false".toList

/-- The characters of an integer, also with a mark after them. -/
theorem isBareInteger {ds mark : List Char} {n : Int} (h : Text.SpellsInteger ds n) (hmark : IsRun mark) :
    IsBareInteger (ds ++ mark) := by
  obtain ⟨d, hmem, hd⟩ := h.exists_isDigit
  have hin : d ∈ ds ++ mark := List.mem_append_left _ hmem
  have hrun : IsRun (ds ++ mark) := by
    intro c hc
    rcases List.mem_append.1 hc with hc | hc
    · rcases h.mem hc with rfl | rfl | hc
      · decide
      · decide
      · exact isWordChar_of_isDigit hc
    · exact hmark c hc
  -- neither truth value has a digit in it
  have hne {word : List Char} (hword : word.any Char.isDigit = false) : ds ++ mark ≠ word := by
    rintro rfl
    rw [List.any_eq_true.2 ⟨d, hin, hd⟩] at hword
    cases hword
  exact ⟨.bare (List.ne_nil_of_mem hin) hrun (isKeyword_of_isDigit hin hd),
    fun hq => Filter.ne_quote (hrun _ hq) rfl, hne (by decide), hne (by decide)⟩

theorem not_mem_integer {c : Char} (hc : c ≠ '-') (hd : c.isDigit = false) (n : Int) :
    c ∉ Text.integer n := by
  intro h
  rcases Text.mem_integer h with h | h
  · exact hc h
  · rw [hd] at h
    exact Bool.false_ne_true h

theorem dropFinal_of_not_mem {c : Char} {cs : List Char} (h : c ∉ cs) :
    Text.dropFinal c cs = none := by
  refine Option.eq_none_iff_forall_ne_some.2 fun rest hrest => h ?_
  rw [Text.dropFinal_eq_some_iff.1 hrest]
  simp

/-- A text of an integer that fits 32 bits is read as such. -/
theorem read?_int32 {cs : List Char} {n : Int32} (h : Text.SpellsInteger cs n.toInt) :
    read? cs = some (.int32 n) := by
  obtain ⟨-, hquote, htrue, hfalse⟩ := isBareInteger h (fun c (hc : c ∈ []) => by simp at hc)
  rw [List.append_nil] at hquote htrue hfalse
  have hwide : Text.dropFinal 'L' cs = none := dropFinal_of_not_mem (h.not_mem rfl rfl)
  rw [read?_of_not_mem hquote, readBare?, if_neg htrue, if_neg hfalse, hwide,
    Text.readInt32?_eq_some_iff.2 h]
  exact if_neg (h.not_mem rfl rfl)

theorem read?_int64 {ds : List Char} {n : Int64} (h : Text.SpellsInteger ds n.toInt) :
    read? (ds ++ ['L']) = some (.int64 n) := by
  obtain ⟨-, hquote, htrue, hfalse⟩ := isBareInteger h (by decide : IsRun ['L'])
  have hwide : Text.dropFinal 'L' (ds ++ ['L']) = some ds := Text.dropFinal_eq_some_iff.2 rfl
  rw [read?_of_not_mem hquote, readBare?, if_neg htrue, if_neg hfalse, hwide]
  exact congrArg (Option.map Value.int64) (Text.readInt64?_eq_some_iff.2 h)

theorem spells_int32 (n : Int32) : Spells (String.ofList (Text.integer n.toInt)) (.int32 n) := by
  have hspell := Text.spellsInteger_integer n.toInt
  have hbare := isBareInteger hspell (fun c (hc : c ∈ []) => by simp at hc)
  rw [List.append_nil] at hbare
  refine ⟨?_, ?_⟩ <;> rw [String.toList_ofList]
  · exact hbare.isWord
  · exact read?_int32 hspell

theorem spells_int64 (n : Int64) :
    Spells (String.ofList (Text.integer n.toInt ++ ['L'])) (.int64 n) := by
  have hspell := Text.spellsInteger_integer n.toInt
  refine ⟨?_, ?_⟩ <;> rw [String.toList_ofList]
  · exact (isBareInteger hspell (by decide)).isWord
  · exact read?_int64 hspell

/-! ### All literals -/

/-- The literal of a value is one word, and reads back as the value with leap seconds carried, unless it
is that of a remote moment. -/
theorem exists_spelling {v : Value} (h : v.kind.hasLiteral) (hr : v.isRemote = false) :
    ∃ text, render v = .ok text ∧ Spells text v.carried := by
  cases v with
  | bool b => exact ⟨_, rfl, spells_bool b⟩
  | int32 n => exact ⟨_, rfl, spells_int32 n⟩
  | int64 n => exact ⟨_, rfl, spells_int64 n⟩
  | string s => exact ⟨_, rfl, spells_string s⟩
  | binary bytes => exact ⟨_, rfl, spells_binary bytes⟩
  | guid g => exact ⟨_, rfl, spells_guid g⟩
  | dateTime t =>
    simp only [Value.isRemote, Bool.not_eq_false', Bool.and_eq_true, decide_eq_true_eq] at hr
    exact ⟨_, rfl, spells_dateTime hr.1 hr.2⟩
  | null | double | list | record => cases h

/-- The literal of a value is one word, and reads back as the value. -/
theorem exists_literal {v : Value} (h : v.IsLiteral) :
    ∃ text, render v = .ok text ∧ Spells text v := by
  cases h with
  | dateTime h0 h1 hclock =>
    have hspells := spells_dateTime h0 h1
    rw [Instant.carried_of_isOnClock hclock] at hspells
    exact ⟨_, rfl, hspells⟩
  | _ => exact exists_spelling rfl rfl

/-! ### Reading and writing

The literals of values of different content differ also where they do not read back: a remote moment
has a text that no other value has. -/

theorem exists_of_isRemote {v : Value} (h : v.isRemote) :
    ∃ t : Instant, v = .dateTime t ∧ ¬(0 ≤ t.date.year ∧ t.date.year ≤ 9999) := by
  cases v with
  | dateTime t =>
    simp only [Value.isRemote, Bool.not_eq_true', Bool.and_eq_false_iff, decide_eq_false_iff_not] at h
    exact ⟨t, rfl, by omega⟩
  | _ => cases h

theorem marked_injective {mark : String} {body other : List Char}
    (h : marked mark body = marked mark other) : body = other :=
  Option.some.inj (by rw [← body?_marked mark body, h, body?_marked])

/-- The text of a literal is refused if it is that of a remote moment, and else read back. -/
theorem exists_render {v : Value} (h : v.kind.hasLiteral) :
    ∃ text, render v = .ok text ∧
      read text = if v.isRemote then .error (.malformedLiteral text) else .ok v.carried := by
  cases hr : v.isRemote with
  | false =>
    obtain ⟨text, hrender, -, hread⟩ := exists_spelling h hr
    exact ⟨text, hrender, by simp [read, hread]⟩
  | true =>
    obtain ⟨t, rfl, hyear⟩ := exists_of_isRemote hr
    refine ⟨_, rfl, ?_⟩
    simp [read, read?_marked_datetime, Instant.read?_zuluText_eq_none hyear]

theorem render_carried (v : Value) : render v.carried = render v := by
  cases v with
  | dateTime t =>
    have htext : t.carried.zuluText = t.zuluText :=
      Instant.zuluText_eq_iff.2 (Instant.carried_of_isOnClock t.isOnClock_carried)
    rw [Value.carried, render, render, htext]
  | _ => rfl

theorem carried_eq_of_render {v w : Value} {text : String} (hv : v.kind.hasLiteral)
    (hw : w.kind.hasLiteral) (h : render v = .ok text) (h' : render w = .ok text) :
    v.carried = w.carried := by
  obtain ⟨_, hrender, hread⟩ := exists_render hv
  obtain ⟨_, hrender', hread'⟩ := exists_render hw
  obtain rfl := Except.ok.inj (hrender.symm.trans h)
  obtain rfl := Except.ok.inj (hrender'.symm.trans h')
  rw [hread] at hread'
  cases hr : v.isRemote <;> cases hr' : w.isRemote
  · simpa [hr, hr'] using hread'
  · simp [hr, hr'] at hread'
  · simp [hr, hr'] at hread'
  · obtain ⟨s, rfl, -⟩ := exists_of_isRemote hr
    obtain ⟨t, rfl, -⟩ := exists_of_isRemote hr'
    have htext := marked_injective (Except.ok.inj (h.trans h'.symm))
    exact congrArg Value.dateTime (Instant.zuluText_eq_iff.1 htext)

/-- Every value other than a double has a literal. It reads back as the value, unless it is that of a
remote moment, and with a leap second within a minute carried into the seconds. No two values share a
literal but moments of which one is so carried into the other. -/
theorem read_render {v : Value} (h : v.kind.hasLiteral) :
    ∃ text, render v = .ok text ∧
      (read text = if v.isRemote then .error (.malformedLiteral text) else .ok v.carried) ∧
      (v.carried = v ↔ ∀ t, v = .dateTime t → t.nanos < 1000000000 ∨ t.seconds % 60 = 59) ∧
      ∀ w : Value, w.kind.hasLiteral → (render w = .ok text ↔ w.carried = v.carried) := by
  obtain ⟨text, hrender, hread⟩ := exists_render h
  refine ⟨text, hrender, hread, Value.carried_eq_iff, fun w hw => ⟨fun hsame => ?_, fun hsame => ?_⟩⟩
  · exact carried_eq_of_render hw h hsame hrender
  · rw [← render_carried, hsame, render_carried, hrender]

theorem read_render_quoted :
    render (.string "X'it''s") = .ok "'X\x27\x27it\x27\x27\x27\x27s'" ∧
      ∃ text, render (.string "X'it''s") = .ok text ∧ read text = .ok (.string "X'it''s") ∧
        ∀ w : Value, w.kind.hasLiteral → (render w = .ok text ↔ w.carried = .string "X'it''s") := by
  obtain ⟨text, hrender, hread, -, hsame⟩ := read_render (v := .string "X'it''s") rfl
  exact ⟨rfl, text, hrender, hread, hsame⟩

/-- A leap second behind 00:00:04 has the literal of a moment within 00:00:05, and is read as that. -/
theorem leap_second_within_minute_not_read :
    let leap : Instant := ⟨4, 1333333333, by decide⟩
    let third : Instant := ⟨5, 333333333, by decide⟩
    render (.dateTime leap) = .ok "datetime\x271970-01-01T00:00:05.333333333Z\x27" ∧
      render (.dateTime third) = .ok "datetime\x271970-01-01T00:00:05.333333333Z\x27" ∧
      read "datetime\x271970-01-01T00:00:05.333333333Z\x27" = .ok (.dateTime third) ∧
      Value.dateTime third ≠ .dateTime leap :=
  ⟨rfl, rfl, rfl, by simp⟩

end Literal

end TableClient
