import TableClient.Proofs.Filter.Literal

/-! The grammar of literals. Doubles left aside, the texts that are read as a value are those of a few
forms, each told by its mark or by its characters; all other texts are refused. The grammar of bytes is
the only one that is wider than two hexadecimal digits, or one character, for each piece of content. -/

namespace TableClient.Literal

open Text (IsHexDigit IsLeadDigit SpellsBytes SpellsInteger)

/-- A mark of bytes and pairs of digits between quotes; `lead` tells what the first of a pair may be. -/
def IsBinary (lead : Char → Nat → Prop) (text : String) (bytes : List UInt8) : Prop :=
  ∃ mark body, (mark = "X" ∨ mark = "binary") ∧ text = marked mark body ∧ SpellsBytes lead body bytes

/-- The forms of literals other than doubles. -/
inductive Form (text : String) : Value → Prop
  | string {s : String} : text = marked "" (doubleQuotes s.toList) → Form text (.string s)
  | binary {bytes : List UInt8} : IsBinary IsLeadDigit text bytes → Form text (.binary bytes)
  | guid {body : List Char} {g : Guid} : text = marked "guid" body → Guid.read? body = some g →
      Form text (.guid g)
  | dateTime {body : List Char} {t : Instant} : text = marked "datetime" body →
      Instant.read? body = some t → Form text (.dateTime t)
  | bool {b : Bool} : text = (if b then "true" else "false") → Form text (.bool b)
  | int64 {ds : List Char} {n : Int64} : text.toList = ds ++ ['L'] → SpellsInteger ds n.toInt →
      Form text (.int64 n)
  | int32 {n : Int32} : SpellsInteger text.toList n.toInt → Form text (.int32 n)

theorem eq_doubleQuotes_of_undoubleQuotes {body s : List Char} (h : undoubleQuotes body = some s) :
    body = doubleQuotes s := by
  fun_induction undoubleQuotes body generalizing s with
  | case1 =>
    cases h
    rfl
  | case2 cs ih =>
    obtain ⟨rest, hrest, rfl⟩ := Option.map_eq_some_iff.1 h
    rw [doubleQuotes, if_pos rfl, ← ih hrest]
  | case3 => cases h
  | case4 c cs _ hc ih =>
    obtain ⟨rest, hrest, rfl⟩ := Option.map_eq_some_iff.1 h
    rw [doubleQuotes, if_neg hc, ← ih hrest]

theorem eq_marked_of_body? {mark text : String} {body : List Char}
    (h : body? mark text.toList = some body) : text = marked mark body :=
  String.toList_inj.1 ((body?_eq_some_iff.1 h).trans (toList_marked mark body).symm)

/-- A text that is not between quotes stands for a truth value or a number. -/
theorem form_of_readBare? {text : String} {v : Value} (h : readBare? text.toList = some v)
    (hv : v.kind ≠ .double) : Form text v := by
  unfold readBare? at h
  split at h
  next htrue =>
    cases h
    exact .bool (String.toList_inj.1 htrue)
  next =>
    split at h
    next hfalse =>
      cases h
      exact .bool (String.toList_inj.1 hfalse)
    next =>
      split at h
      next ds hwide =>
        obtain ⟨n, hn, rfl⟩ := Option.map_eq_some_iff.1 h
        exact .int64 (Text.dropFinal_eq_some_iff.1 hwide) (Text.readInt64?_eq_some_iff.1 hn)
      next =>
        split at h
        next =>
          obtain ⟨x, -, rfl⟩ := Option.map_eq_some_iff.1 h
          exact absurd rfl hv
        next =>
          obtain ⟨n, hn, rfl⟩ := Option.map_eq_some_iff.1 h
          exact .int32 (Text.readInt32?_eq_some_iff.1 hn)

theorem form_of_read? {text : String} {v : Value} (h : read? text.toList = some v)
    (hv : v.kind ≠ .double) : Form text v := by
  unfold read? at h
  split at h
  next body hbody =>
    obtain ⟨s, hs, rfl⟩ := Option.map_eq_some_iff.1 h
    refine .string ?_
    rw [String.toList_ofList, ← eq_doubleQuotes_of_undoubleQuotes hs]
    exact eq_marked_of_body? hbody
  next body hbody _ =>
    obtain ⟨bytes, hbytes, rfl⟩ := Option.map_eq_some_iff.1 h
    refine .binary ?_
    rw [Text.readHexBytes?_eq_some_iff] at hbytes
    rcases (Option.orElse_eq_some _ _ _).1 hbody with hX | ⟨-, hword⟩
    · exact ⟨"X", body, .inl rfl, eq_marked_of_body? hX, hbytes⟩
    · exact ⟨"binary", body, .inr rfl, eq_marked_of_body? hword, hbytes⟩
  next body hbody _ _ =>
    obtain ⟨g, hg, rfl⟩ := Option.map_eq_some_iff.1 h
    exact .guid (eq_marked_of_body? hbody) hg
  next body hbody _ _ _ =>
    obtain ⟨t, ht, rfl⟩ := Option.map_eq_some_iff.1 h
    exact .dateTime (eq_marked_of_body? hbody) ht
  next => exact form_of_readBare? h hv

theorem Form.read? {text : String} {v : Value} (h : Form text v) : Literal.read? text.toList = some v := by
  cases h with
  | string htext =>
    rw [htext]
    exact (spells_string _).read?
  | binary hbinary =>
    obtain ⟨mark, body, hmark, rfl, hbytes⟩ := hbinary
    rw [read?_marked_binary hmark, Text.readHexBytes?_eq_some_iff.2 hbytes, Option.map_some]
  | guid htext hg => rw [htext, read?_marked_guid, hg, Option.map_some]
  | dateTime htext ht => rw [htext, read?_marked_datetime, ht, Option.map_some]
  | bool htext =>
    rw [htext]
    exact (spells_bool _).read?
  | int64 htext hds =>
    rw [htext]
    exact read?_int64 hds
  | int32 hspell => exact read?_int32 hspell

theorem read_eq_ok_iff_read? {text : String} {v : Value} :
    read text = .ok v ↔ read? text.toList = some v := by
  unfold read
  cases read? text.toList <;> simp

/-- A text is read as a value other than a double if and only if it is of a form of that value. -/
theorem read_eq_ok_iff {text : String} {v : Value} (hv : v.kind ≠ .double) :
    read text = .ok v ↔ Form text v := by
  rw [read_eq_ok_iff_read?]
  exact ⟨fun h => form_of_read? h hv, Form.read?⟩

/-- The content of a literal of bytes is what stands between its quotes, so a plus sign in the text is
one of its digits. -/
theorem isBinary_isHexDigit_iff {text : String} {bytes : List UInt8} :
    IsBinary IsHexDigit text bytes ↔ IsBinary IsLeadDigit text bytes ∧ '+' ∉ text.toList := by
  have hplus {mark : String} (hmark : mark = "X" ∨ mark = "binary") (body : List Char) :
      '+' ∉ (marked mark body).toList ↔ '+' ∉ body := by
    rw [toList_marked]
    rcases hmark with rfl | rfl <;> simp
  constructor
  · rintro ⟨mark, body, hmark, rfl, hbytes⟩
    obtain ⟨hlead, hnone⟩ := Text.spellsBytes_isHexDigit_iff.1 hbytes
    exact ⟨⟨mark, body, hmark, rfl, hlead⟩, (hplus hmark body).2 hnone⟩
  · rintro ⟨⟨mark, body, hmark, rfl, hlead⟩, hnone⟩
    exact ⟨mark, body, hmark, rfl, Text.spellsBytes_isHexDigit_iff.2 ⟨hlead, (hplus hmark body).1 hnone⟩⟩

/-- What is read as a text, as bytes and as an integer of either width. Of the texts of bytes those
without a plus sign are the ones in which two hexadecimal digits stand for each byte. A text that is read
as nothing is refused by an error that names it. -/
theorem read_grammar (text : String) :
    (∀ s, read text = .ok (.string s) ↔ text = marked "" (doubleQuotes s.toList)) ∧
      (∀ bytes, read text = .ok (.binary bytes) ↔ IsBinary IsLeadDigit text bytes) ∧
      (∀ bytes, IsBinary IsHexDigit text bytes ↔
        read text = .ok (.binary bytes) ∧ '+' ∉ text.toList) ∧
      (∀ n, read text = .ok (.int64 n) ↔ ∃ ds, text.toList = ds ++ ['L'] ∧ SpellsInteger ds n.toInt) ∧
      (∀ n, read text = .ok (.int32 n) ↔ SpellsInteger text.toList n.toInt) ∧
      ((∃ v, read text = .ok v) ∨ read text = .error (.malformedLiteral text)) := by
  have hbinary (bytes : List UInt8) : read text = .ok (.binary bytes) ↔ IsBinary IsLeadDigit text bytes := by
    rw [read_eq_ok_iff (by rintro ⟨⟩)]
    constructor
    · rintro ⟨⟩
      assumption
    · exact .binary
  refine ⟨fun s => ?_, hbinary, fun bytes => ?_, fun n => ?_, fun n => ?_, ?_⟩
  · rw [read_eq_ok_iff (by rintro ⟨⟩)]
    constructor
    · rintro ⟨⟩
      assumption
    · exact .string
  · rw [isBinary_isHexDigit_iff, hbinary]
  · rw [read_eq_ok_iff (by rintro ⟨⟩)]
    constructor
    · rintro (_ | _ | _ | _ | _ | ⟨htext, hds⟩ | _)
      exact ⟨_, htext, hds⟩
    · rintro ⟨ds, htext, hds⟩
      exact .int64 htext hds
  · rw [read_eq_ok_iff (by rintro ⟨⟩)]
    constructor
    · rintro ⟨⟩
      assumption
    · exact .int32
  · unfold read
    cases read? text.toList with
    | none => exact .inr rfl
    | some v => exact .inl ⟨v, rfl⟩

/-- A plus sign before one digit is read as a byte, although it is no digit itself. -/
theorem read_plus_sign : read "X\x27+f\x27" = .ok (.binary [15]) ∧
    ¬IsBinary IsHexDigit "X\x27+f\x27" [15] :=
  ⟨rfl, fun h => absurd (isBinary_isHexDigit_iff.1 h).2 (by decide)⟩

end TableClient.Literal
