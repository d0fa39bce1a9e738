import TableClient.Json.Tree
import TableClient.Proofs.Json.Lexing

/-! Trees that are written without spaces are read back. A text spells a tree if it is put together the way
the tree is, and each text that does is read as the tree: first its tokens one after another, then, from
these, its items and members. -/

namespace TableClient.Json

inductive Spells : List Char → Tree → Prop
  | null : Spells "null".toList .null
  | bool (b : Bool) : Spells (if b then "true".toList else "false".toList) (.bool b)
  | number {t : NumberText} : t.IsPlain → Spells t.chars (.number t)
  | string (s : String) : Spells (quoted s) (.string (some s))
  | array (items : List (List Char × Tree)) : (∀ i ∈ items, Spells i.1 i.2) →
      Spells (arrayText (items.map Prod.fst)) (.array (items.map Prod.snd))
  | object (members : List (String × List Char × Tree)) : (∀ m ∈ members, Spells m.2.1 m.2.2) →
      Spells (objectText (members.map fun m => memberText m.1 m.2.1))
        (.object (members.map fun m => (some m.1, m.2.2)))

/-! ### From tokens to trees -/

/-- The text is read as certain tokens, and these as a value, with two levels of reading for each of them. -/
def Reads {α : Type} (read : Nat → List Token → Option (α × List Token)) (cs : List Char) (a : α) : Prop :=
  ∃ ts, Lexes cs ts ∧ ∀ fuel rest, 2 * ts.length ≤ fuel → read fuel (ts ++ rest) = some (a, rest)

section Lists

variable {α : Type} {readOne : Nat → List Token → Option (α × List Token)}
  {readList : Nat → List Token → Option (List α × List Token)} {close : Token} {closing : Char}
  {items : List (List Char × α)}

/-- Values with commas between them and a closing token after the last one. -/
structure ListReader (readOne : Nat → List Token → Option (α × List Token))
    (readList : Nat → List Token → Option (List α × List Token)) (close : Token) : Prop where
  comma : ∀ {fuel ts a us}, readOne fuel ts = some (a, .comma :: us) →
    readList (fuel + 1) ts = (readList fuel us).map fun (as, vs) => (a :: as, vs)
  last : ∀ {fuel ts a us}, readOne fuel ts = some (a, close :: us) →
    readList (fuel + 1) ts = some ([a], us)
  nil : ∀ {fuel}, readList fuel [] = none
  close : ∀ {fuel ts}, readList fuel (close :: ts) = none

theorem ListReader.head (hreader : ListReader readOne readList close) {ts us : List Token}
    {as : List α} {fuel : Nat} (h : readList fuel ts = some (as, us)) :
    ∃ first more, ts = first :: more ∧ first ≠ close := by
  cases ts with
  | nil =>
    rw [hreader.nil] at h
    cases h
  | cons first more =>
    refine ⟨first, more, rfl, ?_⟩
    rintro rfl
    rw [hreader.close] at h
    cases h

theorem reads_list (hreader : ListReader readOne readList close) (hclosing : Stops [closing])
    (hspace : isSpace closing = false) (hclose : ∀ rest, readToken closing rest = some (close, rest))
    (hitems : ∀ i ∈ items, Reads readOne i.1 i.2) (hne : items ≠ []) :
    Reads readList ([','].intercalate (items.map Prod.fst) ++ [closing]) (items.map Prod.snd) := by
  have hend : Lexes [closing] [close] := Lexes.nil.cons hspace hclose
  induction items with
  | nil => exact absurd rfl hne
  | cons i more ih =>
    obtain ⟨⟨ts, hlex, hread⟩, hmore⟩ := List.forall_mem_cons.1 hitems
    cases more with
    | nil =>
      rw [List.map_singleton, List.intercalate_singleton]
      refine ⟨ts ++ [close], hlex.append hend (by simp) hclosing, fun fuel rest hfuel => ?_⟩
      rw [List.length_append, List.length_singleton] at hfuel
      obtain ⟨fuel, rfl⟩ : ∃ n, fuel = n + 1 := Nat.exists_eq_add_one_of_ne_zero (by omega)
      rw [List.append_assoc, List.singleton_append]
      exact hreader.last (hread fuel _ (by omega))
    | cons j more =>
      obtain ⟨us, hlexMore, hreadMore⟩ := ih hmore (by simp)
      rw [List.map_cons, List.map_cons, List.intercalate_cons_cons, List.append_assoc, List.append_assoc]
      refine ⟨ts ++ .comma :: us, ?_, fun fuel rest hfuel => ?_⟩
      · exact hlex.append (hlexMore.cons rfl fun _ => rfl) (by simp) (stops_cons (by decide) _)
      · rw [List.length_append, List.length_cons] at hfuel
        obtain ⟨fuel, rfl⟩ : ∃ n, fuel = n + 1 := Nat.exists_eq_add_one_of_ne_zero (by omega)
        rw [List.append_assoc, List.cons_append, hreader.comma (hread fuel _ (by omega)),
          hreadMore fuel rest (by omega)]
        rfl

/-- The same between an opening token and the closing one, also without any values. -/
theorem reads_bracketed (hreader : ListReader readOne readList close) {start : Token} {opening : Char}
    {make : List α → Tree} (hopening : isSpace opening = false)
    (hstart : ∀ rest, readToken opening rest = some (start, rest)) (hclosing : Stops [closing])
    (hspace : isSpace closing = false) (hclose : ∀ rest, readToken closing rest = some (close, rest))
    (hempty : ∀ fuel ts, Tree.readValue (fuel + 1) (start :: close :: ts) = some (make [], ts))
    (hlist : ∀ fuel first ts, first ≠ close → Tree.readValue (fuel + 1) (start :: first :: ts) =
      (readList fuel (first :: ts)).map fun (as, us) => (make as, us))
    (hitems : ∀ i ∈ items, Reads readOne i.1 i.2) :
    Reads Tree.readValue (opening :: ([','].intercalate (items.map Prod.fst) ++ [closing]))
      (make (items.map Prod.snd)) := by
  by_cases hne : items = []
  · subst hne
    refine ⟨[start, close], (Lexes.nil.cons hspace hclose).cons hopening hstart, ?_⟩
    rintro (_ | fuel) rest hfuel
    · cases hfuel
    · exact hempty fuel rest
  · obtain ⟨ts, hlex, hread⟩ := reads_list hreader hclosing hspace hclose hitems hne
    obtain ⟨first, more, hts, hfirst⟩ := hreader.head (hread _ [] (Nat.le_refl _))
    rw [List.append_nil] at hts
    subst hts
    refine ⟨start :: first :: more, hlex.cons hopening hstart, ?_⟩
    rintro (_ | fuel) rest hfuel
    · cases hfuel
    · rw [List.length_cons] at hfuel
      rw [List.cons_append, List.cons_append, hlist fuel first _ hfirst, ← List.cons_append,
        hread fuel rest (by omega)]
      rfl

end Lists

theorem itemReader : ListReader Tree.readValue Tree.readItems .closeArray where
  comma {fuel ts a us} h := by
    rw [Tree.readItems, h]
    show (Tree.readItems fuel us >>= fun x => some (a :: x.1, x.2)) = _
    cases Tree.readItems fuel us <;> rfl
  last h := by
    rw [Tree.readItems, h]
    rfl
  nil {fuel} := by
    cases fuel with
    | zero => rfl
    | succ fuel => cases fuel <;> rfl
  close {fuel ts} := by
    cases fuel with
    | zero => rfl
    | succ fuel => cases fuel <;> rfl

def readMember (fuel : Nat) : List Token → Option ((Option String × Tree) × List Token)
  | .string name :: .colon :: ts => (Tree.readValue fuel ts).map fun (t, ts) => ((name, t), ts)
  | _ => none

theorem readMember_eq_some {fuel : Nat} {ts us : List Token} {m : Option String × Tree}
    (h : readMember fuel ts = some (m, us)) :
    ∃ vs, ts = .string m.1 :: .colon :: vs ∧ Tree.readValue fuel vs = some (m.2, us) := by
  unfold readMember at h
  split at h
  next name vs =>
    obtain ⟨⟨t, us⟩, hvalue, heq⟩ := Option.map_eq_some_iff.1 h
    cases heq
    exact ⟨vs, rfl, hvalue⟩
  next => cases h

theorem memberReader : ListReader readMember Tree.readMembers .closeObject where
  comma {fuel ts m us} h := by
    obtain ⟨vs, rfl, hvalue⟩ := readMember_eq_some h
    rw [Tree.readMembers, hvalue]
    show (Tree.readMembers fuel us >>= fun x => some (m :: x.1, x.2)) = _
    cases Tree.readMembers fuel us <;> rfl
  last h := by
    obtain ⟨vs, rfl, hvalue⟩ := readMember_eq_some h
    rw [Tree.readMembers, hvalue]
    rfl
  nil {fuel} := by cases fuel <;> rfl
  close {fuel ts} := by cases fuel <;> rfl

theorem reads_member {name : String} {ns cs : List Char} {t : Tree}
    (hname : Lexes ns [.string (some name)]) (h : Reads Tree.readValue cs t) :
    Reads readMember (ns ++ ':' :: cs) (some name, t) := by
  obtain ⟨ts, hlex, hread⟩ := h
  refine ⟨.string (some name) :: .colon :: ts, ?_, fun fuel rest hfuel => ?_⟩
  · exact hname.append (hlex.cons rfl fun _ => rfl) (by simp) (stops_cons (by decide) _)
  · rw [List.length_cons, List.length_cons] at hfuel
    rw [List.cons_append, List.cons_append, readMember, hread fuel rest (by omega)]
    rfl

/-- A value that is one token. -/
theorem reads_token {cs : List Char} {token : Token} {t : Tree} (hlex : Lexes cs [token])
    (h : ∀ fuel rest, Tree.readValue fuel (token :: rest) = some (t, rest)) :
    Reads Tree.readValue cs t :=
  ⟨[token], hlex, fun fuel rest _ => h fuel rest⟩

theorem reads_array {items : List (List Char × Tree)} (h : ∀ i ∈ items, Reads Tree.readValue i.1 i.2) :
    Reads Tree.readValue (arrayText (items.map Prod.fst)) (.array (items.map Prod.snd)) :=
  reads_bracketed itemReader rfl (fun _ => rfl) (stops_cons (by decide) []) rfl (fun _ => rfl)
    (fun _ _ => rfl) (fun fuel first ts hfirst => by
      rw [Tree.readValue]
      rintro us ⟨⟩
      exact hfirst rfl) h

theorem reads_object {members : List (List Char × Option String × Tree)}
    (h : ∀ m ∈ members, Reads readMember m.1 m.2) :
    Reads Tree.readValue (objectText (members.map Prod.fst)) (.object (members.map Prod.snd)) :=
  reads_bracketed memberReader rfl (fun _ => rfl) (stops_cons (by decide) []) rfl (fun _ => rfl)
    (fun _ _ => rfl) (fun fuel first ts hfirst => by
      rw [Tree.readValue]
      rintro us ⟨⟩
      exact hfirst rfl) h

theorem Spells.reads {cs : List Char} {t : Tree} (h : Spells cs t) : Reads Tree.readValue cs t := by
  induction h with
  | null => exact reads_token (Lexes.single rfl fun _ _ => rfl) fun fuel rest => by cases fuel <;> rfl
  | bool b =>
    cases b with
    | true => exact reads_token (Lexes.single rfl fun _ _ => rfl) fun fuel rest => by cases fuel <;> rfl
    | false => exact reads_token (Lexes.single rfl fun _ _ => rfl) fun fuel rest => by cases fuel <;> rfl
  | number ht => exact reads_token (lexes_chars ht) fun fuel rest => by cases fuel <;> rfl
  | string s => exact reads_token (lexes_quoted s) fun fuel rest => by cases fuel <;> rfl
  | array items _ ih => exact reads_array ih
  | object members _ ih =>
    have hmembers : ∀ m ∈ members.map fun m => (memberText m.1 m.2.1, some m.1, m.2.2),
        Reads readMember m.1 m.2 := by
      intro _ hm
      obtain ⟨m, hmem, rfl⟩ := List.mem_map.1 hm
      exact reads_member (lexes_quoted m.1) (ih m hmem)
    have hobject := reads_object hmembers
    rw [List.map_map, List.map_map] at hobject
    exact hobject

/-- A text that is read as a tree may have spaces after it. -/
theorem Reads.read?_eq {cs : List Char} {t : Tree} (h : Reads Tree.readValue cs t) {spaces : List Char}
    (hspaces : ∀ c ∈ spaces, isSpace c) : Tree.read? (String.ofList (cs ++ spaces)) = some t := by
  obtain ⟨ts, hlex, hread⟩ := h
  have hvalue := hread (2 * ts.length + 1) [] (by omega)
  rw [List.append_nil] at hvalue
  simp only [Tree.read?, String.toList_ofList, hlex.tokens?_eq hspaces, Option.bind_eq_bind,
    Option.bind_some, hvalue]

/-- A text that spells a tree is read as that tree. -/
theorem Spells.read?_eq {cs : List Char} {t : Tree} (h : Spells cs t) :
    Tree.read? (String.ofList cs) = some t := by
  have hnone : ∀ c ∈ ([] : List Char), isSpace c := nofun
  rw [← List.append_nil cs]
  exact h.reads.read?_eq hnone

end TableClient.Json
