import TableClient.Proofs.Outcome
import TableClient.Query.Chain

/-! Merging plans. What a plan absorbs runs before its own steps, and the smaller of the two caps
counts. A cap that a plan has is never zero. -/

namespace TableClient.Plan

def minCap : Option UInt32 → Option UInt32 → Option UInt32
  | none, d => d
  | c, none => c
  | some m, some n => some (min m n)

def capped (c : Option UInt32) (rows : List Value) : List Value :=
  match c with
  | some n => rows.take n.toNat
  | none => rows

theorem toNat_min (m n : UInt32) : (min m n).toNat = min m.toNat n.toNat := by
  show (if m ≤ n then m else n).toNat = _
  split
  next h =>
    rw [UInt32.le_iff_toNat_le] at h
    omega
  next h =>
    rw [UInt32.le_iff_toNat_le] at h
    omega

theorem capped_minCap (c d : Option UInt32) (rows : List Value) :
    capped (minCap c d) rows = capped c (capped d rows) := by
  cases c with
  | none => cases d <;> rfl
  | some m =>
    cases d with
    | none => rfl
    | some n => simp only [minCap, capped, toNat_min, List.take_take]

theorem capped_nil (c : Option UInt32) : capped c [] = [] := by
  cases c with
  | none => rfl
  | some n => exact List.take_nil

theorem minCap_none (c : Option UInt32) : minCap c none = c := by
  cases c <;> rfl

def CapPositive (p : Plan) : Prop := ∀ n ∈ p.cap, 0 < n.toNat

theorem capPositive_empty : empty.CapPositive := nofun

/-- With a cap that is not zero a single row is left as it is. -/
theorem CapPositive.capped_singleton {p : Plan} (h : p.CapPositive) (row : Value) :
    capped p.cap [row] = [row] := by
  cases hc : p.cap with
  | none => rfl
  | some n => exact List.take_of_length_le (h n hc)

theorem limit_eq_ok {p q : Plan} {count : Int} (h : p.limit count = .ok q) :
    0 < count ∧ count.toNat < UInt32.size ∧
      q = { p with cap := minCap p.cap (some (UInt32.ofNat count.toNat)) } := by
  rw [limit] at h
  split at h
  · cases h
  · split at h
    · cases h
    · cases h
      refine ⟨by omega, by omega, ?_⟩
      cases p.cap <;> rfl

theorem addFilter_eq_ok {p q : Plan} {text : String} (h : p.addFilter text = .ok q) :
    q.cap = p.cap ∧ q.steps = p.steps ∧ q.columns = p.columns := by
  simp only [addFilter] at h
  split at h
  · cases h
  · cases h
    exact ⟨rfl, rfl, rfl⟩

/-- Requiring a predicate changes no part but the filter. -/
theorem require_eq_ok {p q : Plan} {f : Lambda} {renames : Renames}
    (h : p.require f renames = .ok q) :
    q.cap = p.cap ∧ q.steps = p.steps ∧ q.columns = p.columns := by
  obtain ⟨text, -, hrest⟩ := bind_eq_ok_iff.1 h
  simp only at hrest
  split at hrest
  · cases hrest
    exact ⟨rfl, rfl, rfl⟩
  · exact addFilter_eq_ok hrest

theorem addColumns_fst (p : Plan) (columns : List String) :
    (p.addColumns columns).1.cap = p.cap ∧ (p.addColumns columns).1.steps = p.steps ∧
      (p.addColumns columns).1.filter = p.filter := by
  simp only [addColumns]
  split <;> exact ⟨rfl, rfl, rfl⟩

/-- What a plan has after it has absorbed another one. -/
structure Absorbed (p inner q : Plan) : Prop where
  cap_eq : q.cap = minCap p.cap inner.cap
  steps_eq : q.steps = inner.steps ++ p.steps
  capPositive : inner.CapPositive
  filter_none : inner.filter = none → q.filter = p.filter
  filter_some : ∀ text, inner.filter = some text →
    ∃ f, p.addFilter text = .ok f ∧ q.filter = f.filter

/-- Without a filter to absorb, only the columns and the cap are merged before the steps are. -/
theorem absorb_unfiltered {p q : Plan} {columns : Option (List String)} {c : Option UInt32}
    {steps : List RowStep} (h : p.absorb ⟨none, columns, c, steps⟩ = .ok q) :
    q.cap = minCap p.cap c ∧ q.steps = steps ++ p.steps ∧ q.filter = p.filter ∧
      ∀ n ∈ c, 0 < n.toNat := by
  -- the columns change no other part
  have hplain {f : Plan} (hf : f.absorb ⟨none, none, c, steps⟩ = .ok q) :
      q.cap = minCap f.cap c ∧ q.steps = steps ++ f.steps ∧ q.filter = f.filter ∧
        ∀ n ∈ c, 0 < n.toNat := by
    cases c with
    | none =>
      cases hf
      exact ⟨(minCap_none _).symm, rfl, rfl, nofun⟩
    | some n =>
      obtain ⟨l, hl, ⟨⟩⟩ := bind_eq_ok_iff.1 (show f.limit n.toNat >>= _ = .ok q from hf)
      obtain ⟨hpos, -, rfl⟩ := limit_eq_ok hl
      refine ⟨by simp, rfl, rfl, ?_⟩
      rintro m ⟨⟩
      omega
  cases columns with
  | none => exact hplain h
  | some columns =>
    obtain ⟨hcap, hsteps, hfilter⟩ := p.addColumns_fst columns
    cases hadd : p.addColumns columns with
    | mk f e =>
      rw [hadd] at hcap hsteps hfilter
      rw [absorb] at h
      cases e with
      | some e =>
        simp only [ok_bind, hadd] at h
        cases h
      | none =>
        simp only [ok_bind, hadd] at h
        obtain ⟨hc, hs, hf, hpos⟩ := hplain (f := f) h
        exact ⟨hc.trans (by rw [hcap]), hs.trans (by rw [hsteps]), hf.trans hfilter, hpos⟩

theorem absorbed {p inner q : Plan} (h : p.absorb inner = .ok q) : Absorbed p inner q := by
  obtain ⟨filter, columns, c, steps⟩ := inner
  cases filter with
  | none =>
    obtain ⟨hc, hs, hf, hpos⟩ := absorb_unfiltered h
    exact ⟨hc, hs, hpos, fun _ => hf, nofun⟩
  | some text =>
    have hfirst : p.addFilter text >>= (·.absorb ⟨none, columns, c, steps⟩) = .ok q := h
    obtain ⟨f, hadd, hrest⟩ := bind_eq_ok_iff.1 hfirst
    obtain ⟨hcap, hsteps, -⟩ := addFilter_eq_ok hadd
    obtain ⟨hc, hs, hf, hpos⟩ := absorb_unfiltered hrest
    refine ⟨by rw [hc, hcap], by rw [hs, hsteps], hpos, nofun, ?_⟩
    rintro _ ⟨⟩
    exact ⟨f, hadd, hf⟩

theorem Absorbed.capPositive_absorbed {p inner q : Plan} (h : Absorbed p inner q)
    (hp : p.CapPositive) : q.CapPositive := by
  have hinner := h.capPositive
  intro n hn
  rw [h.cap_eq] at hn
  cases hc : p.cap with
  | none =>
    rw [hc] at hn
    exact hinner n hn
  | some m =>
    cases hd : inner.cap with
    | none =>
      rw [hc, hd] at hn
      obtain rfl : m = n := Option.some_inj.1 hn
      exact hp m hc
    | some l =>
      rw [hc, hd] at hn
      obtain rfl : min m l = n := Option.some_inj.1 hn
      have hm := hp m hc
      have hl := hinner l hd
      rw [toNat_min]
      omega

def accepted (p : Plan) (rows : List Value) : List Value :=
  match p.filter with
  | some text => rows.filter (Filter.accepts text)
  | none => rows

theorem run_eq (p : Plan) (rows : List Value) :
    p.run rows = p.finish (capped p.cap (p.accepted rows)) := rfl

theorem accepted_of_filter_none {p : Plan} (h : p.filter = none) (rows : List Value) :
    p.accepted rows = rows := by
  rw [accepted, h]

theorem finish_of_steps_nil {p : Plan} (h : p.steps = []) (rows : List Value) :
    p.finish rows = .ok rows := by
  rw [finish, h]
  rfl

theorem finish_of_steps_single {p : Plan} {step : RowStep} (h : p.steps = [step])
    (rows : List Value) : p.finish rows = step rows := by
  rw [finish, h]
  cases hs : step rows <;> simp [hs]

/-- After absorbing, the absorbed steps run on the rows that both caps leave of those accepted, and
the steps of the plan on what they give. -/
theorem Absorbed.run_eq {p inner q : Plan} (h : Absorbed p inner q) (rows : List Value) :
    q.run rows =
      inner.finish (capped p.cap (capped inner.cap (q.accepted rows))) >>= p.finish := by
  rw [← capped_minCap, ← h.cap_eq]
  have hfinish (r : List Value) : q.finish r = inner.finish r >>= p.finish := by
    rw [finish, h.steps_eq, List.foldlM_append]
    rfl
  exact hfinish _

end TableClient.Plan
