import OpenedExtraction.Cpp

/-! What running directives does to the macro table. -/
namespace OpenedExtraction.Cpp
open OpenedExtraction.PyText
variable {δ : Type*} (repl : Str → δ) (cond : Table δ → Str → Bool)

theorem run_append (s : State δ) (ds es : List Directive) :
    run repl cond s (ds ++ es) = run repl cond (run repl cond s ds) es := List.foldl_append

theorem live_of_frames {s : State δ} (h : s.frames = []) : s.live = true := by
  simp [State.live, h]

/-- What a directive assigns when it is processed: a definition, or none for #undef. -/
def assigned : Directive → Option (Str × Option δ)
  | .define name rest => some (name, some (repl rest))
  | .undef name => some (name, none)
  | _ => none

/-- The assignments of a run, in order; those in skipped groups are left out. -/
def assignments (s : State δ) : List Directive → List (Str × Option δ)
  | [] => []
  | d :: ds => (if s.live then assigned repl d else none).toList ++
      assignments (step repl cond s d) ds

def lastAssigned (s : State δ) (ds : List Directive) (M : Str) : Option (Option δ) :=
  (((assignments repl cond s ds).filter fun a => a.1 = M).getLast?).map Prod.snd

theorem table_step (s : State δ) (d : Directive) (M : Str) :
    (step repl cond s d).table M =
      match (if s.live then assigned repl d else none) with
      | some a => if M = a.1 then a.2 else s.table M
      | none => s.table M := by
  cases d with
  | define n r => cases hl : s.live <;> simp [step, assigned, hl, State.assign]
  | undef n => cases hl : s.live <;> simp [step, assigned, hl, State.assign]
  | ifdef n => cases hl : s.live <;> simp [step, assigned, State.push]
  | ifndef n => cases hl : s.live <;> simp [step, assigned, State.push]
  | ifTrue e => cases hl : s.live <;> simp [step, assigned, State.push]
  | elif e => cases hl : s.live <;> cases hf : s.frames <;> simp [step, assigned, State.switch, hf]
  | else_ => cases hl : s.live <;> cases hf : s.frames <;> simp [step, assigned, State.switch, hf]
  | endif => cases hl : s.live <;> simp [step, assigned]
  | include_ o => cases hl : s.live <;> simp [step, assigned, hl]

/-- A macro ends with its last assignment, or as it was. -/
theorem table_run (s : State δ) (ds : List Directive) (M : Str) :
    (run repl cond s ds).table M = (lastAssigned repl cond s ds M).getD (s.table M) := by
  induction ds generalizing s with
  | nil => rfl
  | cons d ds ih =>
    have hr : run repl cond s (d :: ds) = run repl cond (step repl cond s d) ds := rfl
    rw [hr, ih (step repl cond s d), table_step]
    simp only [lastAssigned, assignments]
    cases ha : (if s.live then assigned repl d else none) with
    | none => simp
    | some a =>
      simp only [Option.toList_some, List.singleton_append]
      by_cases hM : M = a.1
      · rw [List.filter_cons_of_pos (by simp [hM]), List.getLast?_cons]
        cases ((assignments repl cond (step repl cond s d) ds).filter fun b => b.1 = M).getLast? <;>
          simp [hM]
      · rw [List.filter_cons_of_neg (by simp [Ne.symm hM])]
        simp [hM]

theorem lastAssigned_cons (s : State δ) (d : Directive) (ds : List Directive) (M : Str) :
    lastAssigned repl cond s (d :: ds) M = (lastAssigned repl cond (step repl cond s d) ds M).or
      (((if s.live then assigned repl d else none).filter fun a => a.1 = M).map Prod.snd) := by
  simp only [lastAssigned, assignments, List.filter_append, List.getLast?_append, Option.map_or]
  congr 1
  cases (if s.live then assigned repl d else none) with
  | none => rfl
  | some a => by_cases h : a.1 = M <;> simp [Option.filter, h]

/-- The directive number i is processed and assigns v to the macro. -/
def AssignsAt (s : State δ) (ds : List Directive) (M : Str) (i : Nat) (v : Option δ) : Prop :=
  ∃ d, ds[i]? = some d ∧ (run repl cond s (ds.take i)).live = true ∧
    assigned repl d = some (M, v)

def LastAt (s : State δ) (ds : List Directive) (M : Str) (i : Nat) (v : Option δ) : Prop :=
  AssignsAt repl cond s ds M i v ∧ ∀ j w, i < j → ¬ AssignsAt repl cond s ds M j w

theorem assignsAt_zero (s : State δ) (d : Directive) (ds : List Directive) (M : Str)
    (v : Option δ) : AssignsAt repl cond s (d :: ds) M 0 v ↔
      ((if s.live then assigned repl d else none).filter fun a => a.1 = M).map Prod.snd =
        some v := by
  have hat : AssignsAt repl cond s (d :: ds) M 0 v ↔ s.live = true ∧ assigned repl d = some (M, v) := by
    simp [AssignsAt, run]
  rw [hat]
  cases hl : s.live with
  | false => simp
  | true =>
    rw [if_pos rfl, Option.map_eq_some_iff, and_iff_right rfl]
    simp only [Option.filter_eq_some_iff, decide_eq_true_eq]
    constructor
    · intro h
      exact ⟨(M, v), ⟨h, rfl⟩, rfl⟩
    · intro h
      obtain ⟨⟨N, w⟩, ⟨ha, hM⟩, rfl⟩ := h
      rw [ha, show N = M from hM]

theorem lastAt_succ (s : State δ) (d : Directive) (ds : List Directive) (M : Str) (i : Nat)
    (v : Option δ) : LastAt repl cond s (d :: ds) M (i + 1) v ↔
      LastAt repl cond (step repl cond s d) ds M i v := by
  refine and_congr_right fun _ => ⟨fun h j w hj => h (j + 1) w (by omega), fun h j w hj => ?_⟩
  obtain ⟨j, rfl⟩ : ∃ k, j = k + 1 := ⟨j - 1, by omega⟩
  exact h j w (by omega)

theorem lastAssigned_none_iff (s : State δ) (ds : List Directive) (M : Str) :
    lastAssigned repl cond s ds M = none ↔ ∀ i v, ¬ AssignsAt repl cond s ds M i v := by
  induction ds generalizing s with
  | nil =>
    refine iff_of_true rfl fun i v h => ?_
    obtain ⟨d, hd, _⟩ := h
    simp at hd
  | cons d ds ih =>
    rw [lastAssigned_cons, Option.or_eq_none_iff, ih]
    constructor
    · intro h i v hat
      cases i with
      | zero =>
        rw [assignsAt_zero, h.2] at hat
        cases hat
      | succ i => exact h.1 i v hat
    · intro h
      refine ⟨fun i v => h (i + 1) v, Option.eq_none_iff_forall_ne_some.mpr fun v hv => ?_⟩
      exact h 0 v ((assignsAt_zero repl cond s d ds M v).mpr hv)

theorem lastAssigned_some_iff (s : State δ) (ds : List Directive) (M : Str) (v : Option δ) :
    lastAssigned repl cond s ds M = some v ↔ ∃ i, LastAt repl cond s ds M i v := by
  induction ds generalizing s v with
  | nil =>
    refine iff_of_false (by simp [lastAssigned, assignments]) fun h => ?_
    obtain ⟨i, ⟨d, hd, _⟩, _⟩ := h
    simp at hd
  | cons d ds ih =>
    rw [lastAssigned_cons]
    cases hl : lastAssigned repl cond (step repl cond s d) ds M with
    | some w =>
      obtain ⟨k, hk⟩ := (ih _ w).mp hl
      rw [Option.some_or, Option.some.injEq]
      constructor
      · intro h
        rw [← h]
        exact ⟨k + 1, (lastAt_succ repl cond s d ds M k w).mpr hk⟩
      · intro h
        obtain ⟨i, hi⟩ := h
        cases i with
        | zero => exact absurd hk.1 (hi.2 (k + 1) w (by omega))
        | succ i =>
          have he := (ih _ v).mpr ⟨i, (lastAt_succ repl cond s d ds M i v).mp hi⟩
          rw [hl, Option.some.injEq] at he
          exact he
    | none =>
      have hno := (lastAssigned_none_iff repl cond _ ds M).mp hl
      rw [Option.none_or, ← assignsAt_zero repl cond s d ds M v]
      constructor
      · intro h
        refine ⟨0, h, fun j w hj hat => ?_⟩
        obtain ⟨j, rfl⟩ : ∃ k, j = k + 1 := ⟨j - 1, by omega⟩
        exact hno j w hat
      · intro h
        obtain ⟨i, hi⟩ := h
        cases i with
        | zero => exact hi.1
        | succ i => exact absurd hi.1 (hno i v)

def Directive.simple : Directive → Bool
  | .define _ _ | .undef _ | .include_ _ => true
  | _ => false

theorem run_skipped {s : State δ} (hs : s.live = false) {ds : List Directive}
    (h : ∀ d ∈ ds, d.simple = true) : run repl cond s ds = s := by
  induction ds with
  | nil => rfl
  | cons d ds ih =>
    have hd : step repl cond s d = s := by
      cases d with
      | define n r => simp [step, hs]
      | undef n => simp [step, hs]
      | include_ o => simp [step, hs]
      | ifdef | ifndef | ifTrue | elif | else_ | endif => cases h _ List.mem_cons_self
    have hr : run repl cond s (d :: ds) = run repl cond (step repl cond s d) ds := rfl
    rw [hr, hd]
    exact ih fun x hx => h x (List.mem_cons_of_mem d hx)

theorem run_unless {s : State δ} {name : Str} (ht : name = [] ∨ (s.table name).isSome)
    {ds : List Directive} (h : ∀ d ∈ ds, d.simple = true) :
    run repl cond s (.ifndef name :: (ds ++ [.endif])) = s := by
  have hfalse : decide (name ≠ [] ∧ (s.table name).isNone = true) = false := by
    rw [decide_eq_false_iff_not]
    intro hn
    cases ht with
    | inl ht => exact hn.1 ht
    | inr ht =>
      obtain ⟨v, hv⟩ := Option.isSome_iff_exists.mp ht
      simp [hv] at hn
  have hdead : (s.push false).live = false := by
    have hframe : ∃ b, b ≠ .active ∧ (s.push false).frames = b :: s.frames := by
      cases hl : s.live with
      | false => exact ⟨.done, by decide, by simp [State.push, hl]⟩
      | true => exact ⟨.waiting, by decide, by simp [State.push, hl]⟩
    obtain ⟨b, hb, hframes⟩ := hframe
    simp [State.live, hframes, hb]
  have hr : run repl cond s (.ifndef name :: (ds ++ [.endif])) =
      run repl cond (run repl cond (s.push false) ds) [.endif] := by
    rw [← run_append]
    change run repl cond (s.push _) _ = _
    rw [hfalse]
  rw [hr, run_skipped repl cond hdead h]
  rfl

/-- A directive that says nothing about other macros and opens or closes no conditional. -/
def About (name : Str) : Directive → Prop
  | .define n _ => n = name ∧ name ≠ []
  | .undef n => n = name
  | .include_ _ => True
  | _ => False

instance (name : Str) (d : Directive) : Decidable (About name d) :=
  match d with
  | .define n _ => inferInstanceAs (Decidable (n = name ∧ name ≠ []))
  | .undef n => inferInstanceAs (Decidable (n = name))
  | .include_ _ => .isTrue trivial
  | .ifdef _ | .ifndef _ | .ifTrue _ | .elif _ | .else_ | .endif => .isFalse id

theorem About.simple {name : Str} {d : Directive} (h : About name d) : d.simple = true := by
  cases d with
  | define | undef | include_ => rfl
  | ifdef | ifndef | ifTrue | elif | else_ | endif => exact h.elim

def valueAfter (v : Option δ) : Directive → Option δ
  | .define _ rest => some (repl rest)
  | .undef _ => none
  | _ => v

def defined (ds : List Directive) : Option δ := ds.foldl (valueAfter repl) none

theorem defined_nameless {ds : List Directive} (h : ∀ d ∈ ds, About [] d) :
    defined repl ds = none := by
  have hnone : ∀ v : Option δ, v = none → ds.foldl (valueAfter repl) v = none := by
    induction ds with
    | nil => exact fun v hv => hv
    | cons d ds ih =>
      intro v hv
      refine ih (fun x hx => h x (List.mem_cons_of_mem d hx)) _ ?_
      have hd := h d List.mem_cons_self
      cases d with
      | define n r => exact absurd rfl hd.2
      | undef n => rfl
      | include_ o => exact hv
      | ifdef | ifndef | ifTrue | elif | else_ | endif => exact hd.elim
  exact hnone none rfl

theorem run_about {s : State δ} (hs : s.live = true) {name : Str} {ds : List Directive}
    (h : ∀ d ∈ ds, About name d) : (run repl cond s ds).frames = s.frames ∧
      ∀ M, (run repl cond s ds).table M =
        if M = name then ds.foldl (valueAfter repl) (s.table M) else s.table M := by
  induction ds generalizing s with
  | nil => exact ⟨rfl, fun M => by simp [run]⟩
  | cons d ds ih =>
    have hd := h d List.mem_cons_self
    have hstep : (step repl cond s d).frames = s.frames ∧ ∀ M, (step repl cond s d).table M =
        if M = name then valueAfter repl (s.table M) d else s.table M := by
      cases d with
      | define n r =>
        obtain ⟨rfl, _⟩ := hd
        rw [step, if_pos hs]
        exact ⟨rfl, fun M => rfl⟩
      | undef n =>
        obtain rfl : n = name := hd
        rw [step, if_pos hs]
        exact ⟨rfl, fun M => rfl⟩
      | include_ o =>
        rw [step, if_pos hs]
        exact ⟨rfl, fun M => by simp [valueAfter]⟩
      | ifdef | ifndef | ifTrue | elif | else_ | endif => exact hd.elim
    have hlive : (step repl cond s d).live = true := by
      rw [State.live, hstep.1]
      exact hs
    obtain ⟨hf, ht⟩ := ih hlive fun x hx => h x (List.mem_cons_of_mem d hx)
    refine ⟨hf.trans hstep.1, fun M => (ht M).trans ?_⟩
    rw [hstep.2 M]
    by_cases hM : M = name <;> simp [hM]

/-- Guarded directives about a macro take effect only if it is not defined yet. -/
theorem run_guarded {s : State δ} (hf : s.frames = []) {name : Str} {ds : List Directive}
    (hds : ∀ d ∈ ds, About name d) :
    (run repl cond s (.ifndef name :: (ds ++ [.endif]))).frames = [] ∧
      ∀ M, (run repl cond s (.ifndef name :: (ds ++ [.endif]))).table M =
        (s.table M).or (if M = name then defined repl ds else none) := by
  by_cases hskip : name = [] ∨ (s.table name).isSome
  · rw [run_unless repl cond hskip fun d hd => (hds d hd).simple]
    refine ⟨hf, fun M => ?_⟩
    by_cases hM : M = name
    · rw [hM, if_pos rfl]
      cases hskip with
      | inl hnil =>
        rw [hnil] at hds ⊢
        rw [defined_nameless repl hds, Option.or_none]
      | inr hsome => rw [Option.or_of_isSome hsome]
    · rw [if_neg hM, Option.or_none]
  · rw [not_or, Option.not_isSome_iff_eq_none] at hskip
    obtain ⟨hname, ht⟩ := hskip
    have hpush : step repl cond s (.ifndef name) = s.push true := by
      simp [step, hname, ht]
    have hlive : (s.push true).live = true := by
      simp [State.push, State.live, hf]
    have hframes : (s.push true).frames = [.active] := by
      simp [State.push, State.live, hf]
    obtain ⟨hrun, htable⟩ := run_about repl cond hlive hds
    have hcut : run repl cond s (.ifndef name :: (ds ++ [.endif])) =
        step repl cond (run repl cond (s.push true) ds) .endif := by
      have happ := run_append repl cond (s.push true) ds [.endif]
      rw [← hpush] at happ ⊢
      exact happ
    rw [hcut]
    refine ⟨by rw [step, hrun, hframes]; rfl, fun M => (htable M).trans ?_⟩
    by_cases hM : M = name
    · rw [if_pos hM, if_pos hM, hM]
      have hnone : (s.push true).table name = none := ht
      rw [hnone, ht, Option.none_or, defined]
    · rw [if_neg hM, if_neg hM, Option.or_none]
      rfl

end OpenedExtraction.Cpp
