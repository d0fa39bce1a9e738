/-! What is cut off a text: the blanks at both ends, which leaves a text with a non-blank character at each
end as it is, and what is known to stand at the front, at the end or within. -/

namespace TableClient.Text

/-! ### Blanks -/

/-- The characters with the Unicode property White_Space. -/
def isBlank (c : Char) : Bool :=
  let n := c.toNat
  (9 ≤ n && n ≤ 13) || n == 0x20 || n == 0x85 || n == 0xa0 || n == 0x1680 ||
    (0x2000 ≤ n && n ≤ 0x200a) || n == 0x2028 || n == 0x2029 || n == 0x202f || n == 0x205f ||
    n == 0x3000

/-- The characters of the Unicode category Cc. -/
def isControl (c : Char) : Bool :=
  c.toNat < 0x20 || (0x7f ≤ c.toNat && c.toNat ≤ 0x9f)

def trimLeft (cs : List Char) : List Char :=
  cs.dropWhile isBlank

def trimRight (cs : List Char) : List Char :=
  (trimLeft cs.reverse).reverse

def trim (cs : List Char) : List Char :=
  trimRight (trimLeft cs)

/-- A text that neither begins nor ends with a blank is its own cut. -/
theorem trim_eq_self {cs : List Char} (hd : cs.head?.all (!isBlank ·))
    (tl : cs.getLast?.all (!isBlank ·)) : trim cs = cs := by
  have keep : ∀ {ds : List Char}, ds.head?.all (!isBlank ·) → trimLeft ds = ds := by
    intro ds h
    cases ds with
    | nil => rfl
    | cons d ds => simp_all [trimLeft]
  rw [trim, keep hd, trimRight, keep (by simpa using tl), List.reverse_reverse]

/-! ### Affixes -/

/-- The rest of the second text after the first, if it begins with it. -/
def dropLead : List Char → List Char → Option (List Char)
  | [], cs => some cs
  | _ :: _, [] => none
  | p :: ps, c :: cs => if p = c then dropLead ps cs else none

/-- The text before its last character, if that character is `last`. -/
def dropFinal (last : Char) : List Char → Option (List Char)
  | [] => none
  | [c] => if c = last then some [] else none
  | c :: cs => (dropFinal last cs).map (c :: ·)

/-- Whether a text occurs as a run of neighbouring characters of another. -/
def occursIn (part : List Char) : List Char → Bool
  | [] => part.isEmpty
  | c :: cs => part.isPrefixOf (c :: cs) || occursIn part cs

theorem dropLead_eq_some_iff {lead cs rest : List Char} :
    dropLead lead cs = some rest ↔ cs = lead ++ rest := by
  induction lead generalizing cs with
  | nil => simp [dropLead, eq_comm]
  | cons p ps ih =>
    cases cs with
    | nil => simp [dropLead]
    | cons c cs => by_cases h : p = c <;> simp [dropLead, h, ih, eq_comm]

theorem dropFinal_eq_some_iff {last : Char} {cs rest : List Char} :
    dropFinal last cs = some rest ↔ cs = rest ++ [last] := by
  induction cs generalizing rest with
  | nil => simp [dropFinal]
  | cons c cs ih =>
    cases cs with
    | nil =>
      cases rest with
      | nil => simp [dropFinal, eq_comm]
      | cons r rest => simp [dropFinal]
    | cons d cs =>
      cases rest with
      | nil => simp [dropFinal]
      | cons r rest =>
        rw [dropFinal, Option.map_eq_some_iff]
        · constructor
          · rintro ⟨front, found, same⟩
            rw [ih.1 found, ← same, List.cons_append]
          · intro h
            simp only [List.cons_append, List.cons.injEq] at h
            exact ⟨rest, ih.2 h.2, by rw [h.1]⟩
        · simp

end TableClient.Text
