import TableClient.Proofs.Expr.NormalForm
import TableClient.Query.Translator

/-! What an expression sees of a row. It reads members directly off the parameter that stands for the row,
and uses the row as a whole if the parameter occurs in any other place. An expression that does not use the
row as a whole has one outcome, value or failure, on all rows that agree on the members that it reads:
below lambdas, in branches that are not reached and in operands that fail as well. -/

namespace TableClient.Expr

/-- The parameter occurs as anything but the target of a member read. -/
inductive UsesWhole (param : String) : Expr → Prop
  | parameter : UsesWhole param (parameter param)
  | inside {c e : Expr} : c ∈ e.parts → e.parameterMember? param = none → UsesWhole param c →
      UsesWhole param e

/-- A member is read directly off the parameter, at any depth. -/
def ReadsMember (param name : String) (e : Expr) : Prop :=
  IsWithin (member (parameter param) name) e

variable {param name : String} {e : Expr}

theorem parameterMember?_eq_some_iff :
    e.parameterMember? param = some name ↔ e = member (parameter param) name := by
  constructor
  · intro h
    unfold parameterMember? at h
    split at h
    · split at h
      next hp =>
        cases h
        rw [hp]
      next => cases h
    next => cases h
  · rintro rfl
    simp [parameterMember?]

theorem not_usesWhole_of_parameterMember? (h : e.parameterMember? param = some name) :
    ¬e.UsesWhole param := by
  intro hwhole
  cases hwhole with
  | parameter => cases h
  | inside _ hnone _ =>
    rw [hnone] at h
    cases h

/-- What uses the row as a whole, apart from the row itself, has a part that does. -/
theorem usesWhole_iff (hmember : e.parameterMember? param = none) (hne : e ≠ parameter param) :
    e.UsesWhole param ↔ ∃ c ∈ e.parts, c.UsesWhole param := by
  constructor
  · intro h
    cases h with
    | parameter => exact absurd rfl hne
    | inside hc _ hwhole => exact ⟨_, hc, hwhole⟩
  · rintro ⟨c, hc, hwhole⟩
    exact .inside hc hmember hwhole

theorem readsMember_iff (hmember : e.parameterMember? param = none) :
    e.ReadsMember param name ↔ ∃ c ∈ e.parts, c.ReadsMember param name := by
  constructor
  · intro h
    cases h with
    | self => simp [parameterMember?] at hmember
    | inside hc hwithin => exact ⟨_, hc, hwithin⟩
  · rintro ⟨c, hc, hwithin⟩
    exact .inside hc hwithin

/-- The parameters have no parts. -/
theorem not_readsMember_parameter (p : String) : ¬(parameter p).ReadsMember param name := by
  intro h
  cases h with
  | inside hc _ => cases hc

/-! ### Collecting the members -/

theorem rowMembersReceiver_eq (found : List String) (receiver : Option Expr) :
    rowMembersReceiver param found receiver = rowMembersAll param found receiver.toList := by
  cases receiver with
  | none => rfl
  | some e => simp [rowMembersReceiver, rowMembersAll]

theorem rowMembersAll_append (found : List String) (es ds : List Expr) :
    rowMembersAll param found (es ++ ds) =
      ((rowMembersAll param (rowMembersAll param found es).1 ds).1,
        (rowMembersAll param found es).2 &&
          (rowMembersAll param (rowMembersAll param found es).1 ds).2) := by
  induction es generalizing found with
  | nil => simp [rowMembersAll]
  | cons e es ih => simp [rowMembersAll, ih, Bool.and_assoc]

theorem rowMembersNamed_eq (found : List String) (members : List (String × Expr)) :
    rowMembersNamed param found members = rowMembersAll param found (members.map Prod.snd) := by
  induction members generalizing found with
  | nil => rfl
  | cons m rest ih => simp [rowMembersNamed, rowMembersAll, ih]

/-- The members of a node are those of its parts, one part after another. -/
theorem rowMembers_eq (hmember : e.parameterMember? param = none) (hne : ∀ p, e ≠ parameter p)
    (found : List String) : e.rowMembers param found = rowMembersAll param found e.parts := by
  cases e with
  | constant | source => rfl
  | parameter p => exact absurd rfl (hne p)
  | member target name =>
    cases target with
    | parameter p =>
      have hp : p ≠ param := by
        rintro rfl
        simp [parameterMember?] at hmember
      simp [rowMembers, parts, rowMembersAll, hp]
    | _ => simp [rowMembers, parts, rowMembersAll]
  | not operand => simp [rowMembers, parts, rowMembersAll]
  | binary op left right => simp [rowMembers, parts, rowMembersAll]
  | call method receiver args =>
    rw [parts, rowMembersAll_append, ← rowMembersReceiver_eq, rowMembers]
  | newArray element items => rw [rowMembers, parts]
  | new members => rw [rowMembers, parts, rowMembersNamed_eq]
  | lambda p body => simp [rowMembers, parts, rowMembersAll]

theorem rowMembers_parameter (p : String) (found : List String) :
    (parameter p).rowMembers param found = (found, decide (p ≠ param)) := rfl

theorem mem_rowMembersAll_iff {es : List Expr} {found : List String}
    (h : ∀ c ∈ es, ∀ found, name ∈ (c.rowMembers param found).1 ↔
      name ∈ found ∨ c.ReadsMember param name) :
    name ∈ (rowMembersAll param found es).1 ↔
      name ∈ found ∨ ∃ c ∈ es, c.ReadsMember param name := by
  induction es generalizing found with
  | nil => simp [rowMembersAll]
  | cons e es ih =>
    obtain ⟨he, hes⟩ := List.forall_mem_cons.1 h
    have hfirst : (rowMembersAll param found (e :: es)).1 =
        (rowMembersAll param (e.rowMembers param found).1 es).1 := rfl
    rw [hfirst, ih hes, he, or_assoc, List.exists_mem_cons_iff]

/-- The members that are collected are those that are read. -/
theorem mem_rowMembers_iff {found : List String} :
    name ∈ (e.rowMembers param found).1 ↔ name ∈ found ∨ e.ReadsMember param name := by
  induction e using parts_induction generalizing found with
  | step e ih =>
    cases hmember : e.parameterMember? param with
    | some read =>
      obtain rfl := parameterMember?_eq_some_iff.1 hmember
      have hself : (member (parameter param) read).ReadsMember param name ↔ name = read := by
        constructor
        · intro h
          cases h with
          | self => rfl
          | inside hc hwithin =>
            cases List.mem_singleton.1 hc
            exact absurd hwithin (not_readsMember_parameter param)
        · rintro rfl
          exact .self
      rw [hself]
      simp only [rowMembers, if_true]
      split
      next hin => exact ⟨.inl, fun h => h.elim id fun heq => heq ▸ hin⟩
      next => simp
    | none =>
      by_cases hparam : ∃ p, e = parameter p
      · obtain ⟨p, rfl⟩ := hparam
        rw [rowMembers_parameter]
        exact (or_iff_left (not_readsMember_parameter p)).symm
      · rw [rowMembers_eq hmember (not_exists.1 hparam), readsMember_iff hmember]
        exact mem_rowMembersAll_iff fun c hc _ => ih c hc

theorem restricted_rowMembersAll_iff {es : List Expr} {found : List String}
    (h : ∀ c ∈ es, ∀ found, (c.rowMembers param found).2 = true ↔ ¬c.UsesWhole param) :
    (rowMembersAll param found es).2 = true ↔ ∀ c ∈ es, ¬c.UsesWhole param := by
  induction es generalizing found with
  | nil => simp [rowMembersAll]
  | cons e es ih =>
    obtain ⟨he, hes⟩ := List.forall_mem_cons.1 h
    have hboth : (rowMembersAll param found (e :: es)).2 =
        ((e.rowMembers param found).2 && (rowMembersAll param (e.rowMembers param found).1 es).2) := rfl
    rw [hboth, Bool.and_eq_true, he, ih hes, List.forall_mem_cons]

/-- The columns are restricted exactly if the row is not used as a whole. -/
theorem restricted_rowMembers_iff {found : List String} :
    (e.rowMembers param found).2 = true ↔ ¬e.UsesWhole param := by
  induction e using parts_induction generalizing found with
  | step e ih =>
    cases hmember : e.parameterMember? param with
    | some read =>
      refine iff_of_true ?_ (not_usesWhole_of_parameterMember? hmember)
      obtain rfl := parameterMember?_eq_some_iff.1 hmember
      simp [rowMembers]
    | none =>
      by_cases hparam : ∃ p, e = parameter p
      · obtain ⟨p, rfl⟩ := hparam
        rw [rowMembers_parameter, decide_eq_true_iff]
        constructor
        · intro hne hwhole
          cases hwhole with
          | parameter => exact hne rfl
          | inside hc _ _ => cases hc
        · rintro hnot rfl
          exact hnot .parameter
      · have hne := not_exists.1 hparam
        rw [rowMembers_eq hmember hne, usesWhole_iff hmember (hne param),
          restricted_rowMembersAll_iff fun c hc _ => ih c hc]
        simp

/-! ### Reducing -/

/-- Reducing brings in no use of the row as a whole. -/
theorem usesWhole_of_reduce {r : Expr} (h : e.reduce = .ok r) (hr : r.UsesWhole param) :
    e.UsesWhole param := by
  induction e using parts_induction generalizing r with
  | step e ih =>
    cases hr with
    | parameter =>
      rw [eq_parameter_of_reduce h]
      exact .parameter
    | inside hc hmember hwhole =>
      rcases reduce_cases h with ⟨-, v, rfl⟩ | ⟨-, -, -, hparts⟩
      · cases hc
      · obtain ⟨d, hd, hreduce⟩ := exists_mem_of_forall₂ hparts hc
        refine .inside hd ?_ (ih d hd hreduce hwhole)
        -- a member read of the parameter is reduced to itself
        rw [Option.eq_none_iff_forall_ne_some]
        intro read hread
        obtain rfl := parameterMember?_eq_some_iff.1 hread
        have hself : (member (parameter param) read).reduce = .ok (member (parameter param) read) := rfl
        rw [hself] at h
        cases h
        rw [hread] at hmember
        cases hmember

/-! ### Evaluation -/

section Congruence

variable {env env' : Bindings}

theorem evaluateAll_congr {es : List Expr} (h : ∀ c ∈ es, c.evaluate env = c.evaluate env') :
    evaluateAll env es = evaluateAll env' es := by
  induction es with
  | nil => rfl
  | cons e es ih =>
    obtain ⟨he, hes⟩ := List.forall_mem_cons.1 h
    rw [evaluateAll, evaluateAll, he, ih hes]

theorem evaluateMembers_congr {members : List (String × Expr)}
    (h : ∀ c ∈ members.map Prod.snd, c.evaluate env = c.evaluate env') :
    evaluateMembers env members = evaluateMembers env' members := by
  induction members with
  | nil => rfl
  | cons m rest ih =>
    obtain ⟨hm, hrest⟩ := List.forall_mem_cons.1 h
    rw [evaluateMembers, evaluateMembers, hm, ih hrest]

/-- A node other than a parameter depends on its bindings only through its parts. -/
theorem evaluate_congr_parts (hne : ∀ p, e ≠ parameter p)
    (h : ∀ c ∈ e.parts, c.evaluate env = c.evaluate env') : e.evaluate env = e.evaluate env' := by
  cases e with
  | constant | source | lambda => rfl
  | parameter p => exact absurd rfl (hne p)
  | member target name => rw [evaluate, evaluate, h target (List.mem_singleton_self target)]
  | not operand => rw [evaluate, evaluate, h operand (List.mem_singleton_self operand)]
  | binary op left right =>
    have hleft := h left List.mem_cons_self
    have hright := h right (List.mem_cons_of_mem _ List.mem_cons_self)
    cases op <;> simp only [evaluate, hleft, hright]
  | call method receiver args =>
    obtain ⟨hreceiver, hargs⟩ := List.forall_mem_append.1 h
    have hr : evaluateReceiver env receiver = evaluateReceiver env' receiver := by
      cases receiver with
      | none => rfl
      | some e => rw [evaluateReceiver, evaluateReceiver, hreceiver e (List.mem_singleton_self e)]
    rw [evaluate, evaluate, hr, evaluateAll_congr hargs]
  | newArray element items =>
    have hitems : evaluateAll env items = evaluateAll env' items := evaluateAll_congr h
    rw [evaluate, evaluate, hitems]
  | new members =>
    have hmembers : evaluateMembers env members = evaluateMembers env' members :=
      evaluateMembers_congr h
    rw [evaluate, evaluate, hmembers]

end Congruence

/-- Rows that agree on the members that an expression reads are alike to it, unless it uses the row as a
whole. -/
theorem evaluate_congr_row {row row' : Value} (hwhole : ¬e.UsesWhole param)
    (h : ∀ name, e.ReadsMember param name → row.readMember name = row'.readMember name) :
    e.evaluate [(param, row)] = e.evaluate [(param, row')] := by
  induction e using parts_induction with
  | step e ih =>
    cases hmember : e.parameterMember? param with
    | some read =>
      obtain rfl := parameterMember?_eq_some_iff.1 hmember
      simpa [evaluate, Keyed.find?] using h read .self
    | none =>
      by_cases hparam : ∃ p, e = parameter p
      · obtain ⟨p, rfl⟩ := hparam
        have hne : param ≠ p := by
          rintro rfl
          exact hwhole .parameter
        simp [evaluate, Keyed.find?, hne]
      · refine evaluate_congr_parts (not_exists.1 hparam) fun c hc => ih c hc ?_ fun name hreads => ?_
        · exact fun hcwhole => hwhole (.inside hc hmember hcwhole)
        · exact h name (.inside hc hreads)

end TableClient.Expr
