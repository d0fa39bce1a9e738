import TableClient.Proofs.Filter.Translated
import TableClient.Proofs.Query.Composition
import TableClient.Proofs.Query.Contribution

/-! Texts in filters are inert. A chain of `Where` calls with a place for a text in one of its predicates
compiles, whatever the text, to the filter of one template: stripping, trimming and joining by `and` treat all
instances alike. So the tokens of two of them differ in the literal alone, however the texts are made up of
quotes, parentheses or keywords. -/

namespace TableClient

open TableClient.Filter

namespace Plan

/-! ### Plans of templates -/

/-- A plan that has at most a filter, after a template. -/
def ofTemplate (t : Option Template) (s : String) : Plan :=
  ⟨t.map (·.fill s), none, none, []⟩

def HasGap (t : Option Template) : Prop :=
  ∃ u ∈ t, u.IsGap

variable {t u : Template} {absorbed : Prop}

theorem hasGap_some : HasGap (some t) ↔ t.IsGap := by
  simp [HasGap]

theorem not_hasGap_none : ¬HasGap none := by
  simp [HasGap]

theorem exists_gap_of_hasGap {t : Option Template} (h : HasGap t) : ∃ g, t = some (.gap g) := by
  obtain ⟨u, hu, hgap⟩ := h
  cases u with
  | fixed => exact hgap.elim
  | gap g => exact ⟨g, hu⟩

theorem ofTemplate_eq_of_not_hasGap {t : Option Template} (h : ¬HasGap t) (s s' : String) :
    ofTemplate t s = ofTemplate t s' := by
  cases t with
  | none => rfl
  | some u =>
    cases u with
    | fixed => rfl
    | gap g => exact absurd ⟨_, rfl, trivial⟩ h

theorem exists_groupForAnd (t : Template) :
    ∃ v : Template, (v.IsGap ↔ t.IsGap) ∧
      ∀ s, String.ofList (groupForAnd (t.fill s).toList) = v.fill s := by
  cases t with
  | fixed text closed =>
    have hclosed : QuotesClosed (String.ofList (groupForAnd text.toList)).toList := by
      rw [String.toList_ofList]
      exact closed.groupForAnd
    exact ⟨.fixed _ hclosed, Iff.rfl, fun s => rfl⟩
  | gap g =>
    obtain ⟨k, hk⟩ := g.exists_groupForAnd
    refine ⟨.gap k, Iff.rfl, fun s => ?_⟩
    rw [Template.fill, Template.fill, String.toList_ofList, hk]

theorem exists_conjoin (h : ¬(t.IsGap ∧ u.IsGap)) :
    ∃ v : Template, (v.IsGap ↔ t.IsGap ∨ u.IsGap) ∧ ∀ s, conjoin (t.fill s) (u.fill s) = v.fill s := by
  obtain ⟨l, hl, hleft⟩ := exists_groupForAnd t
  obtain ⟨r, hr, hright⟩ := exists_groupForAnd u
  have hone : ¬(l.IsGap ∧ r.IsGap) := by rwa [hl, hr]
  obtain ⟨v, hv, hjoined⟩ := Template.exists_joined .and hone
  refine ⟨v, by rw [hv, hl, hr], fun s => ?_⟩
  rw [← hjoined, ← hleft, ← hright]
  apply String.toList_injective
  rw [toList_conjoin, toList_joined, String.toList_ofList, String.toList_ofList]

/-- Merging two plans of which at most one has a gap gives a plan with that gap. -/
theorem exists_merged {t u : Option Template} (h : ¬(HasGap t ∧ HasGap u)) :
    ∃ v, (HasGap v ↔ HasGap t ∨ HasGap u) ∧
      ∀ s, (ofTemplate t s).merged (ofTemplate u s) = ofTemplate v s := by
  cases t with
  | none => exact ⟨u, by simp [not_hasGap_none], fun s => rfl⟩
  | some t =>
    cases u with
    | none => exact ⟨some t, by simp [not_hasGap_none], fun s => rfl⟩
    | some u =>
      rw [hasGap_some, hasGap_some] at h ⊢
      obtain ⟨v, hv, hfill⟩ := exists_conjoin h
      refine ⟨some v, hasGap_some.trans hv, fun s => ?_⟩
      show Plan.mk (some (conjoin (t.fill s) (u.fill s))) none none [] = _
      rw [hfill]
      rfl

/-- A predicate whose texts are those of a template requires a filter of a template, or none. -/
theorem uniform_require {renames : Renames} {F : String → Lambda}
    (h : Translates absorbed fun s => (F s).toFilter renames) :
    Uniform (fun s => empty.require (F s) renames) ofTemplate fun t => HasGap t ↔ ¬absorbed := by
  refine Uniform.bind h fun t ht => ?_
  rw [← ht]
  cases t with
  | fixed text closed =>
    by_cases hempty : String.ofList (stripOuter text.toList) = ""
    · exact .ok (k := none) (by simp [HasGap, Template.IsGap]) fun s => if_pos hempty
    · cases hadd : empty.addFilter (String.ofList (stripOuter text.toList)) with
      | error error => exact .error fun s => (if_neg hempty).trans hadd
      | ok p =>
        have htrimmed : QuotesClosed
            (String.ofList (Text.trim (String.ofList (stripOuter text.toList)).toList)).toList := by
          rw [String.toList_ofList, String.toList_ofList]
          exact closed.trim.ungroup.trim
        refine .ok (k := some (.fixed _ htrimmed)) hasGap_some fun s => (if_neg hempty).trans ?_
        simp only [addFilter] at hadd ⊢
        split at hadd
        · cases hadd
        next hne => exact if_neg hne
  | gap g =>
    obtain ⟨k, hk⟩ := g.exists_stripOuter
    refine .ok (k := some (.gap k.trimmed)) hasGap_some fun s => ?_
    have htext : String.ofList (stripOuter (Template.fill (.gap g) s).toList) =
        String.ofList (k.fill s) := by rw [Template.fill, String.toList_ofList, hk]
    simp only [htext, if_neg (Template.ofList_fill_ne_empty k s), addFilter, String.toList_ofList,
      ← Gap.fill_trimmed, if_neg (Template.ofList_fill_ne_empty k.trimmed s)]
    rfl

end Plan

/-! ### Calls of `Where` -/

/-- A `Where` whose predicate reads no column with a quote in its name. -/
def Call.IsQuoteFree (renames : Renames) (c : Call) : Prop :=
  c.IsFilter ∧ ∀ f ∈ c.predicate?, QuoteFree ⟨f.parameter, renames⟩ f.body

/-- A chain of calls with a place for a text in the predicate of one of them. -/
inductive ChainPlace where
  | predicate (method : Method) (receiver : Option Expr) (query : Expr) (param : String) (p : TextPlace)
      (operands : List Expr)
  | inside (method : Method) (receiver : Option Expr) (c : ChainPlace) (operands : List Expr)

namespace ChainPlace

def fill (s : String) : ChainPlace → Expr
  | predicate method receiver query param p operands =>
    .call method receiver (query :: .lambda param (p.fill param s) :: operands)
  | inside method receiver c operands => .call method receiver (c.fill s :: operands)

/-- Whether an `or` around the place has a side that puts no constraint. -/
def IsAbsorbed (renames : Renames) : ChainPlace → Prop
  | predicate _ _ _ param p _ => p.IsAbsorbed fun e => (Lambda.mk param e).toFilter renames
  | inside _ _ c _ => c.IsAbsorbed renames

end ChainPlace

namespace Compiler

variable {renames : Renames} {method : Method} {receiver : Option Expr} {args : List Expr}

theorem contributed_of_isFilter {c : Call} (h : c.IsFilter) :
    standard.contributed renames c = Translator.filter.translate c renames := by
  have hname : c.method.queryOperator? = some "Where" := h
  rw [contributed, chainOperator, hname]
  rfl

theorem isValid_of_contributed {c : Call} {k : Plan} (h : standard.contributed renames c = .ok k) :
    k.IsValid := by
  obtain ⟨name, t, -, ht, htranslate⟩ := contributed_eq_ok_iff.1 h
  exact (Translator.built_of_mem_standard (List.mem_of_find?_eq_some ht) htranslate).isValid

/-- One predicate over a source. -/
theorem compile_filtered_source (f : Lambda) (name : String) :
    standard.compile renames (.filtered (.source name) (.lambda f.parameter f.body)) =
      Plan.empty.require f renames := by
  have hcontributed : standard.contributed renames
      ⟨.operator "Queryable" "Where", .none, [.source name, .lambda f.parameter f.body]⟩ =
        Plan.empty.require f renames := contributed_of_isFilter rfl
  have hcons : standard.compile renames (.filtered (.source name) (.lambda f.parameter f.body)) = _ :=
    compileInto_cons (fun _ => isValid_of_contributed) .empty
  rw [hcons, hcontributed]
  cases hrequire : Plan.empty.require f renames with
  | error => rfl
  | ok k =>
    have hvalid : k.IsValid := isValid_of_contributed (hcontributed.trans hrequire)
    exact congrArg Except.ok (Plan.empty_merged hvalid)

/-- A call without a place. -/
theorem uniform_contributed {c : Call} (h : c.IsQuoteFree renames) :
    Uniform (fun _ => standard.contributed renames c) Plan.ofTemplate fun t => ¬Plan.HasGap t := by
  obtain ⟨hfilter, hpredicate⟩ := h
  rw [contributed_of_isFilter hfilter]
  refine Uniform.const_bind fun f hf => ?_
  have hcloses := closes_toFilter (hpredicate f (lambdaOperand_eq_ok hf))
  exact (Plan.uniform_require (.fixed hcloses)).mono fun t ht => by simpa using ht

/-- A step of a family of chains, from a family of plans. -/
theorem uniform_compileInto_call {query : String → Expr} {args : String → List Expr}
    {P Q : Option Template → Prop} (t : Option Template)
    (h : Uniform (fun s => standard.contributed renames ⟨method, receiver, query s :: args s⟩)
      Plan.ofTemplate P)
    (hrest : ∀ k, P k → Uniform (fun s => standard.compileInto renames
      ((Plan.ofTemplate t s).merged (Plan.ofTemplate k s)) (query s)) Plan.ofTemplate Q) :
    Uniform (fun s => standard.compileInto renames (Plan.ofTemplate t s)
      (.call method receiver (query s :: args s))) Plan.ofTemplate Q :=
  (h.bind hrest).congr fun _ => compileInto_cons (fun _ => isValid_of_contributed) _

/-- A chain without a place keeps the gap that there is. -/
theorem uniform_compileInto_chain {query : Expr} (h : query.IsChain (Call.IsQuoteFree renames))
    (t : Option Template) :
    Uniform (fun s => standard.compileInto renames (Plan.ofTemplate t s) query) Plan.ofTemplate fun u =>
      Plan.HasGap u ↔ Plan.HasGap t := by
  induction h generalizing t with
  | source name => exact .ok Iff.rfl fun s => rfl
  | call hstep _ ih =>
    refine uniform_compileInto_call t (uniform_contributed hstep) fun k hk => ?_
    obtain ⟨v, hv, hmerged⟩ := Plan.exists_merged (t := t) (u := k) fun hboth => hk hboth.2
    refine ((ih v).mono fun u hu => ?_).congr fun s => by rw [hmerged]
    rw [hu, hv, or_iff_left hk]

theorem uniform_compileInto (c : ChainPlace) (h : (c.fill "").IsChain (Call.IsQuoteFree renames))
    {t : Option Template} (ht : ¬Plan.HasGap t) :
    Uniform (fun s => standard.compileInto renames (Plan.ofTemplate t s) (c.fill s)) Plan.ofTemplate
      fun u => Plan.HasGap u ↔ ¬c.IsAbsorbed renames := by
  induction c generalizing t with
  | predicate method receiver query param p operands =>
    cases h with
    | call hstep hquery =>
      obtain ⟨hfilter, hpredicate⟩ := hstep
      have hcontributed (s : String) : standard.contributed renames
          ⟨method, receiver, query :: .lambda param (p.fill param s) :: operands⟩ =
            Plan.empty.require ⟨param, p.fill param s⟩ renames := contributed_of_isFilter hfilter
      have hrequire := Plan.uniform_require (translates_toFilter (hpredicate _ rfl))
      refine uniform_compileInto_call t (hrequire.congr hcontributed) fun k hk => ?_
      obtain ⟨v, hv, hmerged⟩ := Plan.exists_merged (t := t) (u := k) fun hboth => ht hboth.1
      refine ((uniform_compileInto_chain hquery v).mono fun u hu => ?_).congr fun s => by rw [hmerged]
      rw [hu, hv, or_iff_right ht, hk]
      rfl
  | inside method receiver c operands ih =>
    cases h with
    | call hstep hquery =>
      have hcontributed (s : String) : standard.contributed renames ⟨method, receiver, c.fill s :: operands⟩ =
          standard.contributed renames ⟨method, receiver, c.fill "" :: operands⟩ := by
        rw [contributed_of_isFilter hstep.1]
        exact contributed_of_isFilter hstep.1
      refine uniform_compileInto_call t ((uniform_contributed hstep).congr hcontributed) fun k hk => ?_
      obtain ⟨v, hv, hmerged⟩ := Plan.exists_merged (t := t) (u := k) fun hboth => ht hboth.1
      have hgap : ¬Plan.HasGap v := fun hv' => (hv.1 hv').elim ht hk
      exact (ih hquery hgap).congr fun s => by rw [hmerged]

/-- The text in a place has no influence on whether the chain compiles. Its literal is absent from the filter
if an `or` absorbs the place; if not, it is one token that reads back as the text, and all other tokens
are the same for all texts. -/
theorem tokens_compile_text (c : ChainPlace) (h : (c.fill "").IsChain (Call.IsQuoteFree renames)) :
    (∀ s t, (∃ p, standard.compile renames (c.fill s) = .ok p) ↔
      ∃ p, standard.compile renames (c.fill t) = .ok p) ∧
    (c.IsAbsorbed renames → ∀ s t,
      standard.compile renames (c.fill s) = standard.compile renames (c.fill t)) ∧
    (¬c.IsAbsorbed renames → ∃ before after, ∀ s p, standard.compile renames (c.fill s) = .ok p →
      ∃ text literal, p.filter = some text ∧
        tokens text.toList = before ++ .word literal :: after ∧
        Literal.read (String.ofList literal) = .ok (.string s)) := by
  have hplan : Uniform (fun s => standard.compile renames (c.fill s)) Plan.ofTemplate fun t =>
      Plan.HasGap t ↔ ¬c.IsAbsorbed renames := uniform_compileInto c h Plan.not_hasGap_none
  rcases hplan with ⟨error, herror⟩ | ⟨t, ht, hok⟩
  · have hfails (s : String) {p : Plan} : standard.compile renames (c.fill s) ≠ .ok p := by
      intro hp
      cases (herror s).symm.trans hp
    refine ⟨fun s t => ⟨?_, ?_⟩, fun _ s t => (herror s).trans (herror t).symm, fun _ => ⟨[], [], ?_⟩⟩
    · rintro ⟨p, hp⟩
      exact absurd hp (hfails s)
    · rintro ⟨p, hp⟩
      exact absurd hp (hfails t)
    · intro s p hp
      exact absurd hp (hfails s)
  · refine ⟨fun s t => ⟨fun _ => ⟨_, hok t⟩, fun _ => ⟨_, hok s⟩⟩, fun habsorbed s s' => ?_, fun hkept => ?_⟩
    · have hsame := Plan.ofTemplate_eq_of_not_hasGap (fun hgap => ht.1 hgap habsorbed) s s'
      exact (hok s).trans ((congrArg Except.ok hsame).trans (hok s').symm)
    · obtain ⟨g, rfl⟩ := Plan.exists_gap_of_hasGap (ht.2 hkept)
      refine ⟨tokens g.before, tokens g.after, fun s p hp => ?_⟩
      cases (hok s).symm.trans hp
      refine ⟨String.ofList (g.fill s), literalChars s, rfl, ?_, read_literalChars s⟩
      rw [String.toList_ofList, g.tokens_fill]

/-- `Where(e => e.A == text || e.B == 1)`. -/
theorem tokens_compile_text_or :
    let c : ChainPlace := .predicate (.operator "Queryable" "Where") .none (.source "T") "e"
      (.left .or (.compared .eq rfl .left "A") (.binary .eq (.field "e" "B") (.constant (.int32 1)))) []
    (c.fill "").IsChain (Call.IsQuoteFree .empty) ∧ ¬c.IsAbsorbed .empty ∧
      (∀ s, ∃ p, standard.compile .empty (c.fill s) = .ok p) ∧
      ∃ before after, ∀ s p, standard.compile .empty (c.fill s) = .ok p →
        ∃ text literal, p.filter = some text ∧
          tokens text.toList = before ++ .word literal :: after ∧
          Literal.read (String.ofList literal) = .ok (.string s) := by
  intro c
  have hfield {name : String} (h : '\x27' ∉ name.toList) :
      QuoteFree ⟨"e", .empty⟩ (.field "e" name) := quoteFree_field h
  have hchain : (c.fill "").IsChain (Call.IsQuoteFree .empty) := by
    refine .call ⟨rfl, ?_⟩ (.source "T")
    rintro f ⟨⟩
    exact ((hfield (by decide)).binary (quoteFree_constant _) _).binary
      ((hfield (by decide)).binary (quoteFree_constant _) _) _
  have hkept : ¬c.IsAbsorbed .empty := by
    have htext : (Lambda.mk "e" (.binary .eq (.field "e" "B") (.constant (.int32 1)))).toFilter .empty =
        .ok "B eq 1" := rfl
    rintro (⟨-, hnone⟩ | hin)
    · exact absurd (Except.ok.inj (htext.symm.trans hnone)) (by decide)
    · exact hin
  have hcompile : ∃ p, standard.compile .empty (c.fill "x' or 'y") = .ok p := by
    let body : Expr := .binary .or (.binary .eq (.field "e" "A") (.constant (.string "x' or 'y")))
      (.binary .eq (.field "e" "B") (.constant (.int32 1)))
    have hwhole : (Lambda.mk "e" body).toFilter .empty = .ok "(A eq 'x'' or ''y' or B eq 1)" := rfl
    have hstrip : stripOuter "(A eq 'x'' or ''y' or B eq 1)".toList =
        "A eq 'x'' or ''y' or B eq 1".toList := by decide +kernel
    exact ⟨_, (compile_filtered_source ⟨"e", body⟩ "T").trans
      (Plan.require_of_stripOuter hwhole hstrip (Text.isTight_of_trim_eq (by decide) (by decide)))⟩
  obtain ⟨hsame, -, htokens⟩ := tokens_compile_text c hchain
  exact ⟨hchain, hkept, fun s => (hsame s _).2 hcompile, htokens hkept⟩

/-- An `or` with a side that puts no constraint leaves no filter, and a text that is searched in a list leaves
the answer. -/
theorem compile_text_without_literal :
    let absorbed : Expr := .filtered (.source "T") (.lambda "e" (.binary .or
      (.binary .eq (.field "e" "A") (.constant (.string "x")))
      (.call .contains (some (.constant (.list []))) [.field "e" "B"])))
    let searched (s : String) : Expr := .filtered (.source "T") (.lambda "e"
      (.call .contains (some (.constant (.list [.string s]))) [.constant (.string "x")]))
    standard.compile .empty absorbed = .ok ⟨.none, .none, .none, []⟩ ∧
      standard.compile .empty (searched "x") = .ok ⟨some "true", .none, .none, []⟩ ∧
      standard.compile .empty (searched "y") = .ok ⟨some "false", .none, .none, []⟩ := by
  intro absorbed searched
  refine ⟨(compile_filtered_source ⟨"e", _⟩ "T").trans ?_, (compile_filtered_source ⟨"e", _⟩ "T").trans ?_,
    (compile_filtered_source ⟨"e", _⟩ "T").trans ?_⟩
  · have hwhole : (Lambda.mk "e" (.binary .or
        (.binary .eq (.field "e" "A") (.constant (.string "x")))
        (.call .contains (some (.constant (.list []))) [.field "e" "B"]))).toFilter .empty = .ok "" := rfl
    have hstrip : String.ofList (stripOuter "".toList) = "" := by decide +kernel
    rw [Plan.require, hwhole, ok_bind, hstrip]
    rfl
  · exact Plan.require_of_stripOuter rfl (by decide +kernel : stripOuter "true".toList = "true".toList)
      (Text.isTight_of_trim_eq (by decide) (by decide))
  · exact Plan.require_of_stripOuter rfl (by decide +kernel : stripOuter "false".toList = "false".toList)
      (Text.isTight_of_trim_eq (by decide) (by decide))

end Compiler

end TableClient
