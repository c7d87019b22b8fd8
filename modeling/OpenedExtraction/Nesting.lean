import Mathlib.Data.List.Basic
import Mathlib.Data.List.Pairwise
import Mathlib.Tactic.Linarith

/-! Nested groups in a sequence of lines. An opener starts a group, a closer ends the
innermost open group, and a switch ends it and starts the next one. The stack scan is
related to the declarative matching of balanced sequences. No program is mentioned. -/
namespace OpenedExtraction.Nesting
variable {α β : Type*}

inductive Shape where
  | opener | switch | closer | plain
  deriving DecidableEq, Repr

/-- A line with what it contributes to the labels of groups. -/
inductive Role (α : Type*) where
  | opener (label : α)
  | switch (next : α → α)
  | closer
  | plain

def Role.shape : Role α → Shape
  | .opener _ => .opener
  | .switch _ => .switch
  | .closer => .closer
  | .plain => .plain

/-- A closed group: lines first..last carry the label. -/
structure Span (α : Type*) where
  label : α
  first : Nat
  last : Nat
  deriving DecidableEq, Repr

def Span.bounds (g : Span α) : Nat × Nat := (g.first, g.last)

/- The stack scan from line n. The stack keeps label and starting line of the open
   groups, innermost first; an end of a group on an empty stack has no result. -/
def scan : Nat → List (α × Nat) → List (Role α) → Option (List (Span α) × List (α × Nat))
  | _, st, [] => some ([], st)
  | n, st, .opener a :: rs => scan (n + 1) ((a, n) :: st) rs
  | n, (a, i) :: st, .switch f :: rs =>
    (scan (n + 1) ((f a, n) :: st) rs).map (fun r => (⟨a, i, n - 1⟩ :: r.1, r.2))
  | n, (a, i) :: st, .closer :: rs =>
    (scan (n + 1) st rs).map (fun r => (⟨a, i, n - 1⟩ :: r.1, r.2))
  | _, [], .switch _ :: _ => none
  | _, [], .closer :: _ => none
  | n, st, .plain :: rs => scan (n + 1) st rs

/-- Number of open groups after the lines, starting with d. -/
def depth : Nat → List Shape → Option Nat
  | d, [] => some d
  | d, .opener :: rs => depth (d + 1) rs
  | 0, .switch :: _ => none
  | d + 1, .switch :: rs => depth (d + 1) rs
  | 0, .closer :: _ => none
  | d + 1, .closer :: rs => depth d rs
  | d, .plain :: rs => depth d rs

/-- Openers and closers match, and every switch lies inside a group. -/
def Balanced (rs : List Shape) : Prop := depth 0 rs = some 0

instance (rs : List Shape) : Decidable (Balanced rs) := inferInstanceAs (Decidable (_ = _))

def Shape.starts : Shape → Bool
  | .opener | .switch => true
  | _ => false

def Shape.ends : Shape → Bool
  | .switch | .closer => true
  | _ => false

/- Number of lines before the one that ends the group with k groups open above it. -/
def closeAt : Nat → List Shape → Option Nat
  | _, [] => none
  | k, .opener :: rs => (closeAt (k + 1) rs).map (· + 1)
  | 0, .switch :: _ => some 0
  | k + 1, .switch :: rs => (closeAt (k + 1) rs).map (· + 1)
  | 0, .closer :: _ => some 0
  | k + 1, .closer :: rs => (closeAt k rs).map (· + 1)
  | k, .plain :: rs => (closeAt k rs).map (· + 1)

/-- Lines i..j form a group: line i starts one, line j+1 ends one, and the lines
strictly between them are balanced. Lines count from 1. -/
def IsGroup (rs : List Shape) (i j : Nat) : Prop :=
  ∃ a r mid r' rest, rs = a ++ r :: (mid ++ r' :: rest) ∧
    r.starts = true ∧ Balanced mid ∧ r'.ends = true ∧
    i = a.length + 1 ∧ j = a.length + 1 + mid.length

theorem scan_switch_some {n : Nat} {st st' : List (α × Nat)} {f : α → α} {rs : List (Role α)}
    {gs : List (Span α)} (h : scan n st (.switch f :: rs) = some (gs, st')) :
    ∃ e bot gs', st = e :: bot ∧ gs = ⟨e.1, e.2, n - 1⟩ :: gs' ∧
      scan (n + 1) ((f e.1, n) :: bot) rs = some (gs', st') := by
  cases st with
  | nil => simp [scan] at h
  | cons e bot =>
    simp only [scan, Option.map_eq_some_iff, Prod.mk.injEq] at h
    obtain ⟨⟨gs', st''⟩, hs, rfl, rfl⟩ := h
    exact ⟨e, bot, gs', rfl, rfl, hs⟩

theorem scan_closer_some {n : Nat} {st st' : List (α × Nat)} {rs : List (Role α)}
    {gs : List (Span α)} (h : scan n st (.closer :: rs) = some (gs, st')) :
    ∃ e bot gs', st = e :: bot ∧ gs = ⟨e.1, e.2, n - 1⟩ :: gs' ∧
      scan (n + 1) bot rs = some (gs', st') := by
  cases st with
  | nil => simp [scan] at h
  | cons e bot =>
    simp only [scan, Option.map_eq_some_iff, Prod.mk.injEq] at h
    obtain ⟨⟨gs', st''⟩, hs, rfl, rfl⟩ := h
    exact ⟨e, bot, gs', rfl, rfl, hs⟩

theorem scan_append (n : Nat) (st : List (α × Nat)) (a b : List (Role α)) :
    scan n st (a ++ b) = (scan n st a).bind fun r =>
      (scan (n + a.length) r.2 b).map fun r' => (r.1 ++ r'.1, r'.2) := by
  induction a generalizing n st with
  | nil => cases h : scan n st b <;> simp [scan, h]
  | cons r rs ih =>
    have hl : n + (r :: rs).length = n + 1 + rs.length := by simp; omega
    rw [hl]
    cases r with
    | opener x => simpa [scan] using ih (n + 1) ((x, n) :: st)
    | plain => simpa [scan] using ih (n + 1) st
    | switch f =>
      cases st with
      | nil => rfl
      | cons e st =>
        have hi := ih (n + 1) ((f e.1, n) :: st)
        simp only [List.cons_append, scan, hi]
        cases h : scan (n + 1) ((f e.1, n) :: st) rs with
        | none => simp
        | some r => cases h' : scan (n + 1 + rs.length) r.2 b <;> simp [h']
    | closer =>
      cases st with
      | nil => rfl
      | cons e st =>
        have hi := ih (n + 1) st
        simp only [List.cons_append, scan, hi]
        cases h : scan (n + 1) st rs with
        | none => simp
        | some r => cases h' : scan (n + 1 + rs.length) r.2 b <;> simp [h']

theorem depth_append (d : Nat) (a b : List Shape) :
    depth d (a ++ b) = (depth d a).bind fun d' => depth d' b := by
  induction a generalizing d with
  | nil => rfl
  | cons r rs ih =>
    cases r with
    | opener => exact ih (d + 1)
    | plain => exact ih d
    | switch => cases d with
      | zero => rfl
      | succ d => exact ih (d + 1)
    | closer => cases d with
      | zero => rfl
      | succ d => exact ih d

theorem depth_eq_none_iff (d : Nat) (rs : List Shape) :
    depth d rs = none ↔ ∃ a r rest, rs = a ++ r :: rest ∧ r.ends = true ∧ depth d a = some 0 := by
  induction rs generalizing d with
  | nil => simp [depth]
  | cons x rs ih =>
    -- a line that is passed over is the first line of a
    have later : ∀ d', (∀ a, depth d (x :: a) = depth d' a) → (d = 0 → x.ends = false) →
        (depth d (x :: rs) = none ↔ ∃ a r rest, x :: rs = a ++ r :: rest ∧ r.ends = true ∧
          depth d a = some 0) := by
      intro d' hx he
      rw [hx, ih]
      constructor
      · intro h
        obtain ⟨a, r, rest, rfl, hr, ha⟩ := h
        exact ⟨x :: a, r, rest, rfl, hr, by rw [hx]; exact ha⟩
      · intro h
        obtain ⟨a, r, rest, hsplit, hr, ha⟩ := h
        cases a with
        | nil =>
          simp only [List.nil_append, List.cons.injEq] at hsplit
          have hd : d = 0 := by simpa [depth] using ha
          rw [← hsplit.1, he hd] at hr
          simp at hr
        | cons y a =>
          simp only [List.cons_append, List.cons.injEq] at hsplit
          obtain ⟨rfl, rfl⟩ := hsplit
          exact ⟨a, r, rest, rfl, hr, by rw [← hx]; exact ha⟩
    cases x with
    | opener => exact later (d + 1) (fun _ => rfl) (fun _ => rfl)
    | plain => exact later d (fun _ => by cases d <;> rfl) (fun _ => rfl)
    | switch => cases d with
      | zero => exact ⟨fun _ => ⟨[], .switch, rs, rfl, rfl, rfl⟩, fun _ => rfl⟩
      | succ d => exact later (d + 1) (fun _ => rfl) (by simp)
    | closer => cases d with
      | zero => exact ⟨fun _ => ⟨[], .closer, rs, rfl, rfl, rfl⟩, fun _ => rfl⟩
      | succ d => exact later d (fun _ => rfl) (by simp)

/-- The scan has a result exactly when the depth does, and leaves that many groups open. -/
theorem scan_depth (n : Nat) (st : List (α × Nat)) (rs : List (Role α)) :
    (scan n st rs).map (fun r => r.2.length) = depth st.length (rs.map Role.shape) := by
  induction rs generalizing n st with
  | nil => rfl
  | cons r rs ih =>
    cases r with
    | opener x => simpa [scan, depth, Role.shape] using ih (n + 1) ((x, n) :: st)
    | plain => simpa [scan, depth, Role.shape] using ih (n + 1) st
    | switch f => cases st with
      | nil => rfl
      | cons e st =>
        simpa [scan, depth, Role.shape, Function.comp_def] using ih (n + 1) ((f e.1, n) :: st)
    | closer => cases st with
      | nil => rfl
      | cons e st => simpa [scan, depth, Role.shape, Function.comp_def] using ih (n + 1) st

theorem scan_frame (n : Nat) (st bot : List (α × Nat)) (rs : List (Role α))
    {gs : List (Span α)} {st' : List (α × Nat)} (h : scan n st rs = some (gs, st')) :
    scan n (st ++ bot) rs = some (gs, st' ++ bot) := by
  induction rs generalizing n st gs st' with
  | nil =>
    simp only [scan, Option.some.injEq, Prod.mk.injEq] at h ⊢
    exact ⟨h.1, by rw [h.2]⟩
  | cons r rs ih =>
    cases r with
    | opener x => exact ih (n + 1) ((x, n) :: st) h
    | plain => exact ih (n + 1) st (by simpa [scan] using h)
    | switch f =>
      obtain ⟨e, bot, gs', rfl, rfl, hs⟩ := scan_switch_some h
      have hi := ih (n + 1) ((f e.1, n) :: bot) hs
      simp only [List.cons_append] at hi
      simp [scan, hi]
    | closer =>
      obtain ⟨e, bot, gs', rfl, rfl, hs⟩ := scan_closer_some h
      simp [scan, ih (n + 1) bot hs]

theorem scan_balanced (n : Nat) (rs : List (Role α)) (h : Balanced (rs.map Role.shape)) :
    ∃ gs, ∀ st : List (α × Nat), scan n st rs = some (gs, st) := by
  have hd := scan_depth n ([] : List (α × Nat)) rs
  rw [List.length_nil, h] at hd
  obtain ⟨⟨gs, st'⟩, hs, hl⟩ := Option.map_eq_some_iff.mp hd
  have hst : st' = [] := List.length_eq_zero_iff.mp hl
  subst hst
  exact ⟨gs, fun st => by simpa using scan_frame n [] st rs hs⟩

/-- The scan emits a group at each end of a group, after the groups of earlier lines. -/
theorem scan_bounds {n : Nat} {st : List (α × Nat)} {rs : List (Role α)}
    {gs : List (Span α)} {st' : List (α × Nat)} (hn : 1 ≤ n)
    (h : scan n st rs = some (gs, st')) :
    ∀ g ∈ gs, (n ≤ g.first ∨ g.first ∈ st.map Prod.snd) ∧ n ≤ g.last + 1 ∧
      g.last + 1 < n + rs.length := by
  induction rs generalizing n st gs st' with
  | nil =>
    simp only [scan, Option.some.injEq, Prod.mk.injEq] at h
    simp [← h.1]
  | cons r rs ih =>
    -- every later group ends on a later line, and may start on this one
    have later : ∀ {st₁ : List (α × Nat)} {gs₁ : List (Span α)},
        scan (n + 1) st₁ rs = some (gs₁, st') →
        (∀ i ∈ st₁.map Prod.snd, n ≤ i ∨ i ∈ st.map Prod.snd) →
        ∀ g ∈ gs₁, (n ≤ g.first ∨ g.first ∈ st.map Prod.snd) ∧ n ≤ g.last + 1 ∧
          g.last + 1 < n + (r :: rs).length := by
      intro st₁ gs₁ hs hst g hg
      obtain ⟨h1, h2, h3⟩ := ih (by omega) hs g hg
      refine ⟨?_, by omega, by simp only [List.length_cons]; omega⟩
      rcases h1 with h1 | h1
      · exact Or.inl (by omega)
      · exact hst _ h1
    cases r with
    | opener x =>
      refine later (by simpa [scan] using h) ?_
      intro i hi
      rcases List.mem_cons.mp hi with rfl | hi
      · exact Or.inl le_rfl
      · exact Or.inr hi
    | plain => exact later (by simpa [scan] using h) (fun i hi => Or.inr hi)
    | switch f =>
      obtain ⟨e, bot, gs', rfl, rfl, hs⟩ := scan_switch_some h
      intro g hg
      rcases List.mem_cons.mp hg with rfl | hg
      · exact ⟨Or.inr (by simp), by simp only; omega, by simp only [List.length_cons]; omega⟩
      · refine later hs ?_ g hg
        intro i hi
        rcases List.mem_cons.mp hi with rfl | hi
        · exact Or.inl le_rfl
        · exact Or.inr (List.mem_cons_of_mem _ hi)
    | closer =>
      obtain ⟨e, bot, gs', rfl, rfl, hs⟩ := scan_closer_some h
      intro g hg
      rcases List.mem_cons.mp hg with rfl | hg
      · exact ⟨Or.inr (by simp), by simp only; omega, by simp only [List.length_cons]; omega⟩
      · exact later hs (fun i hi => Or.inr (List.mem_cons_of_mem _ hi)) g hg

theorem scan_between (a b c : List (Role α)) (ha : Balanced (a.map Role.shape))
    (hb : Balanced (b.map Role.shape)) (hc : Balanced (c.map Role.shape)) :
    ∃ ga gb gc, scan 1 [] (a ++ (b ++ c)) = some (ga ++ (gb ++ gc), []) ∧
      (∀ st, scan (1 + a.length) st b = some (gb, st)) ∧
      (∀ g ∈ ga, g.last < a.length) ∧ ∀ g ∈ gc, a.length + b.length < g.first := by
  obtain ⟨ga, hga⟩ := scan_balanced 1 a ha
  obtain ⟨gb, hgb⟩ := scan_balanced (1 + a.length) b hb
  obtain ⟨gc, hgc⟩ := scan_balanced (1 + a.length + b.length) c hc
  refine ⟨ga, gb, gc, ?_, hgb, ?_, ?_⟩
  · simp [scan_append, hga, hgb, hgc]
  · intro g hg
    have := (scan_bounds le_rfl (hga []) g hg).2.2
    omega
  · intro g hg
    have hf := (scan_bounds (by omega) (hgc []) g hg).1
    simp only [List.map_nil, List.not_mem_nil, or_false] at hf
    omega

theorem scan_plain (n : Nat) (st : List (α × Nat)) (ps rs : List (Role α))
    (h : ∀ r ∈ ps, r = .plain) : scan n st (ps ++ rs) = scan (n + ps.length) st rs := by
  induction ps generalizing n with
  | nil => rfl
  | cons p ps ih =>
    rw [h p (by simp), List.cons_append, scan, ih (n + 1) fun r hr => h r (by simp [hr])]
    congr 1
    simp
    omega

def wrap (label : Option α) (rs : List (Role α)) : List (Role α) :=
  (label.map Role.opener).toList ++ (rs ++ (label.map fun _ => Role.closer).toList)

/-- A wrapped balanced segment is found as one group after the groups inside it, all of
which end before the last line of the segment. -/
theorem scan_wrap (n : Nat) (hn : 1 ≤ n) (label : Option α) (ps rs : List (Role α))
    (hp : ∀ r ∈ ps, r = .plain) (hr : Balanced (rs.map Role.shape)) :
    ∃ gs, (∀ st, scan n st (wrap label (ps ++ rs)) =
        some (gs ++ (label.map fun a => (⟨a, n, n + ps.length + rs.length⟩ : Span α)).toList,
          st)) ∧
      ∀ g ∈ gs, g.last + 1 < n + label.toList.length + ps.length + rs.length := by
  cases label with
  | none =>
    obtain ⟨gs, hgs⟩ := scan_balanced (n + ps.length) rs hr
    refine ⟨gs, fun st => by simp [wrap, scan_plain n st ps _ hp, hgs], fun g hg => ?_⟩
    exact (scan_bounds (by omega) (hgs []) g hg).2.2
  | some a =>
    obtain ⟨gs, hgs⟩ := scan_balanced (n + 1 + ps.length) rs hr
    refine ⟨gs, fun st => ?_, fun g hg => (scan_bounds (by omega) (hgs []) g hg).2.2⟩
    have hl : n + 1 + ps.length + rs.length - 1 = n + ps.length + rs.length := by omega
    simp [wrap, scan, scan_plain (n + 1) _ ps _ hp, scan_append, hgs, hl]

theorem balanced_wrap (label : Option α) (ps rs : List (Role α))
    (hp : ∀ r ∈ ps, r = .plain) (hr : Balanced (rs.map Role.shape)) :
    Balanced ((wrap label (ps ++ rs)).map Role.shape) := by
  obtain ⟨gs, hgs, _⟩ := scan_wrap 1 le_rfl label ps rs hp hr
  have hd := scan_depth 1 ([] : List (α × Nat)) (wrap label (ps ++ rs))
  rw [hgs []] at hd
  exact hd.symm

theorem balanced_flatten (rss : List (List Shape)) (h : ∀ rs ∈ rss, Balanced rs) :
    Balanced rss.flatten := by
  induction rss with
  | nil => rfl
  | cons rs rss ih =>
    rw [List.flatten_cons, Balanced, depth_append, h rs (by simp)]
    exact ih fun x hx => h x (by simp [hx])

/-- Starting lines on the stack, innermost first, lie before line n. -/
def Descending (n : Nat) (st : List (α × Nat)) : Prop :=
  st.Pairwise (fun a b => b.2 < a.2) ∧ ∀ e ∈ st, e.2 < n

theorem Descending.push {n : Nat} {st : List (α × Nat)} (h : Descending n st) (a : α) :
    Descending (n + 1) ((a, n) :: st) := by
  refine ⟨List.pairwise_cons.mpr ⟨h.2, h.1⟩, ?_⟩
  intro e he
  rcases List.mem_cons.mp he with rfl | he
  · simp
  · have := h.2 e he
    omega

theorem Descending.pop {n : Nat} {st : List (α × Nat)} {e : α × Nat}
    (h : Descending n (e :: st)) : Descending n st :=
  ⟨(List.pairwise_cons.mp h.1).2, fun x hx => h.2 x (List.mem_cons_of_mem e hx)⟩

theorem Descending.weaken {n : Nat} {st : List (α × Nat)} (h : Descending n st) :
    Descending (n + 1) st :=
  ⟨h.1, fun e he => by have := h.2 e he; omega⟩

/-- The order of the emitted groups: a later group ends on a later line, and it either
starts outside an earlier one or after its end. -/
def Before (g h : Span α) : Prop :=
  g.last < h.last ∧ (h.first < g.first ∨ g.last < h.first)

/- A group that ends at line n comes before every group found later: those start on
   line n at the earliest or are still open below it. -/
private theorem before_later {n i : Nat} {a : α} {st st₁ : List (α × Nat)}
    {rs : List (Role α)} {gs : List (Span α)} {st' : List (α × Nat)}
    (hn : 1 ≤ n) (hi : ∀ e ∈ st, e.2 < i)
    (hst : ∀ x ∈ st₁, x.2 = n ∨ x ∈ st)
    (h : scan (n + 1) st₁ rs = some (gs, st')) :
    ∀ g ∈ gs, Before ⟨a, i, n - 1⟩ g := by
  intro g hg
  obtain ⟨h1, h2, _⟩ := scan_bounds (by omega) h g hg
  refine ⟨by simp only; omega, ?_⟩
  rcases h1 with h1 | h1
  · exact Or.inr (by simp only; omega)
  · obtain ⟨e, he, hf⟩ := List.mem_map.mp h1
    rcases hst e he with hx | hx
    · exact Or.inr (by simp only; omega)
    · have := hi e hx
      exact Or.inl (by simp only; omega)

/-- The groups of a scan are listed by increasing end, innermost first; each has at
least its starting line. -/
theorem scan_pairwise {n : Nat} {st : List (α × Nat)} {rs : List (Role α)}
    {gs : List (Span α)} {st' : List (α × Nat)} (hn : 1 ≤ n) (hd : Descending n st)
    (h : scan n st rs = some (gs, st')) :
    gs.Pairwise Before ∧ ∀ g ∈ gs, g.first ≤ g.last := by
  induction rs generalizing n st gs st' with
  | nil =>
    simp only [scan, Option.some.injEq, Prod.mk.injEq] at h
    simp [← h.1]
  | cons r rs ih =>
    cases r with
    | opener x => exact ih (by omega) (hd.push x) (by simpa [scan] using h)
    | plain => exact ih (by omega) hd.weaken (by simpa [scan] using h)
    | switch f =>
      obtain ⟨e, bot, gs', rfl, rfl, hs⟩ := scan_switch_some h
      obtain ⟨hp, hf⟩ := ih (by omega) (hd.pop.push (f e.1)) hs
      have hlast := hd.2 e (by simp)
      refine ⟨List.pairwise_cons.mpr ⟨?_, hp⟩, ?_⟩
      · refine before_later hn (List.pairwise_cons.mp hd.1).1 ?_ hs
        intro y hy
        rcases List.mem_cons.mp hy with rfl | hy
        · exact Or.inl rfl
        · exact Or.inr hy
      · intro g hg
        rcases List.mem_cons.mp hg with rfl | hg
        · simp only; omega
        · exact hf g hg
    | closer =>
      obtain ⟨e, bot, gs', rfl, rfl, hs⟩ := scan_closer_some h
      obtain ⟨hp, hf⟩ := ih (by omega) hd.pop.weaken hs
      have hlast := hd.2 e (by simp)
      refine ⟨List.pairwise_cons.mpr ⟨?_, hp⟩, ?_⟩
      · exact before_later hn (List.pairwise_cons.mp hd.1).1 (fun y hy => Or.inr hy) hs
      · intro g hg
        rcases List.mem_cons.mp hg with rfl | hg
        · simp only; omega
        · exact hf g hg

theorem scan_labels (P : α → Prop) {n : Nat} {st : List (α × Nat)} {rs : List (Role α)}
    {gs : List (Span α)} {st' : List (α × Nat)} (hst : ∀ e ∈ st, P e.1)
    (ho : ∀ a, Role.opener a ∈ rs → P a)
    (hw : ∀ f, Role.switch f ∈ rs → ∀ a, P a → P (f a))
    (h : scan n st rs = some (gs, st')) : ∀ g ∈ gs, P g.label := by
  induction rs generalizing n st gs st' with
  | nil =>
    simp only [scan, Option.some.injEq, Prod.mk.injEq] at h
    simp [← h.1]
  | cons r rs ih =>
    have ho' : ∀ a, Role.opener a ∈ rs → P a := fun a ha => ho a (List.mem_cons_of_mem r ha)
    have hw' : ∀ f, Role.switch f ∈ rs → ∀ a, P a → P (f a) :=
      fun f hf => hw f (List.mem_cons_of_mem r hf)
    cases r with
    | opener x =>
      have hx : ∀ e ∈ (x, n) :: st, P e.1 := by
        simpa using ⟨ho x (by simp), fun a b hab => hst (a, b) hab⟩
      exact ih hx ho' hw' (by simpa [scan] using h)
    | plain => exact ih hst ho' hw' (by simpa [scan] using h)
    | switch f =>
      obtain ⟨e, bot, gs', rfl, rfl, hs⟩ := scan_switch_some h
      have he : P e.1 := hst e (by simp)
      have hx : ∀ y ∈ (f e.1, n) :: bot, P y.1 := by
        simpa using ⟨hw f (by simp) e.1 he, fun a b hab => hst (a, b) (by simp [hab])⟩
      simpa using ⟨he, ih hx ho' hw' hs⟩
    | closer =>
      obtain ⟨e, bot, gs', rfl, rfl, hs⟩ := scan_closer_some h
      have hi := ih (fun x hx => hst x (List.mem_cons_of_mem e hx)) ho' hw' hs
      simpa using ⟨hst e (by simp), hi⟩

def Role.Labels (r : Role α) (a : α) : Prop :=
  r = .opener a ∨ ∃ f b, r = .switch f ∧ a = f b

theorem scan_label {n : Nat} {st : List (α × Nat)} {rs : List (Role α)}
    {gs : List (Span α)} {st' : List (α × Nat)} (h : scan n st rs = some (gs, st')) :
    ∀ g ∈ gs, (g.label, g.first) ∈ st ∨
      ∃ k r, rs[k]? = some r ∧ g.first = n + k ∧ r.Labels g.label := by
  induction rs generalizing n st gs st' with
  | nil =>
    simp only [scan, Option.some.injEq, Prod.mk.injEq] at h
    simp [← h.1]
  | cons r rs ih =>
    -- what the tail says about a later group, with the lines counted from n
    have later : ∀ {st₁ : List (α × Nat)} {gs₁ : List (Span α)},
        scan (n + 1) st₁ rs = some (gs₁, st') →
        (∀ e ∈ st₁, e ∈ st ∨ (e.2 = n ∧ r.Labels e.1)) →
        ∀ g ∈ gs₁, (g.label, g.first) ∈ st ∨
          ∃ k x, (r :: rs)[k]? = some x ∧ g.first = n + k ∧ x.Labels g.label := by
      intro st₁ gs₁ hs hst g hg
      cases ih hs g hg with
      | inl hm =>
        cases hst _ hm with
        | inl hold => exact Or.inl hold
        | inr hnew => exact Or.inr ⟨0, r, rfl, hnew.1, hnew.2⟩
      | inr hk =>
        obtain ⟨k, x, hx, hf, hl⟩ := hk
        exact Or.inr ⟨k + 1, x, hx, by omega, hl⟩
    cases r with
    | opener a =>
      refine later (by simpa [scan] using h) fun e he => ?_
      cases List.mem_cons.mp he with
      | inl heq => exact Or.inr ⟨by rw [heq], Or.inl (by rw [heq])⟩
      | inr hm => exact Or.inl hm
    | plain => exact later (by simpa [scan] using h) fun e he => Or.inl he
    | switch f =>
      obtain ⟨e, bot, gs', rfl, rfl, hs⟩ := scan_switch_some h
      intro g hg
      cases List.mem_cons.mp hg with
      | inl heq => exact Or.inl (by simp [heq])
      | inr hm =>
        refine later hs (fun x hx => ?_) g hm
        cases List.mem_cons.mp hx with
        | inl heq => exact Or.inr ⟨by rw [heq], Or.inr ⟨f, e.1, rfl, by rw [heq]⟩⟩
        | inr hin => exact Or.inl (List.mem_cons_of_mem e hin)
    | closer =>
      obtain ⟨e, bot, gs', rfl, rfl, hs⟩ := scan_closer_some h
      intro g hg
      cases List.mem_cons.mp hg with
      | inl heq => exact Or.inl (by simp [heq])
      | inr hm => exact later hs (fun x hx => Or.inl (List.mem_cons_of_mem e hx)) g hm

end OpenedExtraction.Nesting
