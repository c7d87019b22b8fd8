import OpenedExtraction.Nesting

/-! The stack scan of nested groups finds exactly the matched pairs of lines. -/
namespace OpenedExtraction.Nesting
variable {α β : Type*}

theorem closeAt_iff (k m : Nat) (rs : List Shape) :
    closeAt k rs = some m ↔ ∃ mid r rest, rs = mid ++ r :: rest ∧ mid.length = m ∧
      depth k mid = some 0 ∧ r.ends = true := by
  induction rs generalizing k m with
  | nil => simp [closeAt]
  | cons x rs ih =>
    -- a line that does not end the group is the first line of mid
    have inner : ∀ k', (∀ mid, depth k (x :: mid) = depth k' mid) →
        (k = 0 → x.ends = false) →
        ((closeAt k' rs).map (· + 1) = some m ↔ ∃ mid r rest, x :: rs = mid ++ r :: rest ∧
          mid.length = m ∧ depth k mid = some 0 ∧ r.ends = true) := by
      intro k' hx he
      rw [Option.map_eq_some_iff]
      constructor
      · rintro ⟨m', hm, rfl⟩
        obtain ⟨mid, r, rest, rfl, rfl, hd, hr⟩ := (ih k' m').mp hm
        exact ⟨x :: mid, r, rest, rfl, rfl, by rw [hx]; exact hd, hr⟩
      · rintro ⟨mid, r, rest, he', rfl, hd, hr⟩
        cases mid with
        | nil =>
          simp only [List.nil_append, List.cons.injEq] at he'
          have hk : k = 0 := by simpa [depth] using hd
          rw [← he'.1, he hk] at hr
          simp at hr
        | cons y mid =>
          simp only [List.cons_append, List.cons.injEq] at he'
          obtain ⟨rfl, rfl⟩ := he'
          exact ⟨mid.length, (ih k' mid.length).mpr
            ⟨mid, r, rest, rfl, rfl, by rw [← hx]; exact hd, hr⟩, rfl⟩
    -- an end of the group itself leaves mid empty
    have here : x.ends = true → (∀ mid, depth 0 (x :: mid) = none) →
        (some 0 = some m ↔ ∃ mid r rest, x :: rs = mid ++ r :: rest ∧
          mid.length = m ∧ depth 0 mid = some 0 ∧ r.ends = true) := by
      intro he hx
      constructor
      · intro hm
        cases hm
        exact ⟨[], x, rs, rfl, rfl, rfl, he⟩
      · rintro ⟨mid, r, rest, he', rfl, hd, _⟩
        cases mid with
        | nil => rfl
        | cons y mid =>
          simp only [List.cons_append, List.cons.injEq] at he'
          rw [← he'.1, hx mid] at hd
          simp at hd
    cases x with
    | opener => exact inner (k + 1) (fun _ => rfl) (fun _ => rfl)
    | plain => exact inner k (fun _ => by cases k <;> rfl) (fun _ => rfl)
    | switch => cases k with
      | zero => exact here rfl (fun _ => rfl)
      | succ k => exact inner (k + 1) (fun _ => rfl) (by simp)
    | closer => cases k with
      | zero => exact here rfl (fun _ => rfl)
      | succ k => exact inner k (fun _ => rfl) (by simp)

/- Groups of the lines from n on: those of the stack that are ended, and those that
   start at offset p. -/
private def Found (n : Nat) (st : List (α × Nat)) (rs : List Shape) (i j : Nat) : Prop :=
  (∃ k e m, st[k]? = some e ∧ e.2 = i ∧ closeAt k rs = some m ∧ j + 1 = n + m) ∨
  (∃ p r m, rs[p]? = some r ∧ r.starts = true ∧ closeAt 0 (rs.drop (p + 1)) = some m ∧
    i = n + p ∧ j = n + p + m)

private theorem found_plain (n : Nat) (st : List (α × Nat)) (rs : List Shape) (i j : Nat) :
    Found n st (.plain :: rs) i j ↔ Found (n + 1) st rs i j := by
  have hc : ∀ k, closeAt k (.plain :: rs) = (closeAt k rs).map (· + 1) := by
    intro k
    cases k <;> rfl
  constructor
  · rintro (⟨k, e, m, hk, hi, hm, hj⟩ | ⟨p, r, m, hp, hr, hm, hi, hj⟩)
    · rw [hc, Option.map_eq_some_iff] at hm
      obtain ⟨m', hm', rfl⟩ := hm
      exact Or.inl ⟨k, e, m', hk, hi, hm', by omega⟩
    · cases p with
      | zero =>
        cases hp
        simp [Shape.starts] at hr
      | succ p => exact Or.inr ⟨p, r, m, hp, hr, hm, by omega, by omega⟩
  · rintro (⟨k, e, m, hk, hi, hm, hj⟩ | ⟨p, r, m, hp, hr, hm, hi, hj⟩)
    · exact Or.inl ⟨k, e, m + 1, hk, hi, by rw [hc, hm]; rfl, by omega⟩
    · exact Or.inr ⟨p + 1, r, m, hp, hr, hm, by omega, by omega⟩

private theorem found_opener (n : Nat) (st : List (α × Nat)) (a : α) (rs : List Shape)
    (i j : Nat) :
    Found n st (.opener :: rs) i j ↔ Found (n + 1) ((a, n) :: st) rs i j := by
  constructor
  · rintro (⟨k, e, m, hk, hi, hm, hj⟩ | ⟨p, r, m, hp, hr, hm, hi, hj⟩)
    · rw [closeAt, Option.map_eq_some_iff] at hm
      obtain ⟨m', hm', rfl⟩ := hm
      exact Or.inl ⟨k + 1, e, m', hk, hi, hm', by omega⟩
    · cases p with
      | zero => exact Or.inl ⟨0, (a, n), m, rfl, by simp only; omega, hm, by omega⟩
      | succ p => exact Or.inr ⟨p, r, m, hp, hr, hm, by omega, by omega⟩
  · rintro (⟨k, e, m, hk, hi, hm, hj⟩ | ⟨p, r, m, hp, hr, hm, hi, hj⟩)
    · cases k with
      | zero =>
        cases hk
        exact Or.inr ⟨0, .opener, m, rfl, rfl, hm, by omega, by omega⟩
      | succ k => exact Or.inl ⟨k, e, m + 1, hk, hi, by rw [closeAt, hm]; rfl, by omega⟩
    · exact Or.inr ⟨p + 1, r, m, hp, hr, hm, by omega, by omega⟩

private theorem found_switch (n : Nat) (st : List (α × Nat)) (e : α × Nat) (a : α)
    (rs : List Shape) (i j : Nat) (hn : 1 ≤ n) :
    Found n (e :: st) (.switch :: rs) i j ↔
      (i = e.2 ∧ j = n - 1) ∨ Found (n + 1) ((a, n) :: st) rs i j := by
  constructor
  · rintro (⟨k, e', m, hk, hi, hm, hj⟩ | ⟨p, r, m, hp, hr, hm, hi, hj⟩)
    · cases k with
      | zero =>
        cases hk
        cases hm
        exact Or.inl ⟨hi.symm, by omega⟩
      | succ k =>
        rw [closeAt, Option.map_eq_some_iff] at hm
        obtain ⟨m', hm', rfl⟩ := hm
        exact Or.inr (Or.inl ⟨k + 1, e', m', hk, hi, hm', by omega⟩)
    · cases p with
      | zero => exact Or.inr (Or.inl ⟨0, (a, n), m, rfl, by simp only; omega, hm, by omega⟩)
      | succ p => exact Or.inr (Or.inr ⟨p, r, m, hp, hr, hm, by omega, by omega⟩)
  · rintro (⟨hi, hj⟩ | ⟨k, e', m, hk, hi, hm, hj⟩ | ⟨p, r, m, hp, hr, hm, hi, hj⟩)
    · exact Or.inl ⟨0, e, 0, rfl, hi.symm, rfl, by omega⟩
    · cases k with
      | zero =>
        cases hk
        exact Or.inr ⟨0, .switch, m, rfl, rfl, hm, by omega, by omega⟩
      | succ k => exact Or.inl ⟨k + 1, e', m + 1, hk, hi, by rw [closeAt, hm]; rfl, by omega⟩
    · exact Or.inr ⟨p + 1, r, m, hp, hr, hm, by omega, by omega⟩

private theorem found_closer (n : Nat) (st : List (α × Nat)) (e : α × Nat)
    (rs : List Shape) (i j : Nat) (hn : 1 ≤ n) :
    Found n (e :: st) (.closer :: rs) i j ↔
      (i = e.2 ∧ j = n - 1) ∨ Found (n + 1) st rs i j := by
  constructor
  · rintro (⟨k, e', m, hk, hi, hm, hj⟩ | ⟨p, r, m, hp, hr, hm, hi, hj⟩)
    · cases k with
      | zero =>
        cases hk
        cases hm
        exact Or.inl ⟨hi.symm, by omega⟩
      | succ k =>
        rw [closeAt, Option.map_eq_some_iff] at hm
        obtain ⟨m', hm', rfl⟩ := hm
        exact Or.inr (Or.inl ⟨k, e', m', hk, hi, hm', by omega⟩)
    · cases p with
      | zero =>
        cases hp
        simp [Shape.starts] at hr
      | succ p => exact Or.inr (Or.inr ⟨p, r, m, hp, hr, hm, by omega, by omega⟩)
  · rintro (⟨hi, hj⟩ | ⟨k, e', m, hk, hi, hm, hj⟩ | ⟨p, r, m, hp, hr, hm, hi, hj⟩)
    · exact Or.inl ⟨0, e, 0, rfl, hi.symm, rfl, by omega⟩
    · exact Or.inl ⟨k + 1, e', m + 1, hk, hi, by rw [closeAt, hm]; rfl, by omega⟩
    · exact Or.inr ⟨p + 1, r, m, hp, hr, hm, by omega, by omega⟩

private theorem scan_found {n : Nat} {st : List (α × Nat)} {rs : List (Role α)}
    {gs : List (Span α)} {st' : List (α × Nat)} (hn : 1 ≤ n)
    (h : scan n st rs = some (gs, st')) (i j : Nat) :
    (i, j) ∈ gs.map Span.bounds ↔ Found n st (rs.map Role.shape) i j := by
  induction rs generalizing n st gs st' with
  | nil =>
    simp only [scan, Option.some.injEq, Prod.mk.injEq] at h
    simp [← h.1, Found, closeAt]
  | cons r rs ih =>
    cases r with
    | opener x =>
      have hs : scan (n + 1) ((x, n) :: st) rs = some (gs, st') := by simpa [scan] using h
      rw [ih (by omega) hs]
      exact (found_opener n st x _ i j).symm
    | plain =>
      have hs : scan (n + 1) st rs = some (gs, st') := by simpa [scan] using h
      rw [ih (by omega) hs]
      exact (found_plain n st _ i j).symm
    | switch f =>
      obtain ⟨e, bot, gs', rfl, rfl, hs⟩ := scan_switch_some h
      rw [List.map_cons, List.mem_cons, ih (by omega) hs]
      simp only [List.map_cons, Role.shape]
      rw [found_switch n bot e (f e.1) _ i j hn]
      simp [Span.bounds]
    | closer =>
      obtain ⟨e, bot, gs', rfl, rfl, hs⟩ := scan_closer_some h
      rw [List.map_cons, List.mem_cons, ih (by omega) hs]
      simp only [List.map_cons, Role.shape]
      rw [found_closer n bot e _ i j hn]
      simp [Span.bounds]

/-- A scan of a whole file emits exactly the groups of the file. -/
theorem scan_mem_iff {rs : List (Role α)} {gs : List (Span α)} {st' : List (α × Nat)}
    (h : scan 1 [] rs = some (gs, st')) (i j : Nat) :
    (i, j) ∈ gs.map Span.bounds ↔ IsGroup (rs.map Role.shape) i j := by
  rw [scan_found le_rfl h]
  constructor
  · rintro (⟨k, e, m, hk, _⟩ | ⟨p, r, m, hp, hr, hm, hi, hj⟩)
    · simp at hk
    · obtain ⟨mid, r', rest, hd, hl, hb, he⟩ := (closeAt_iff 0 m _).mp hm
      have hlt : p < (rs.map Role.shape).length := by
        by_contra hge
        rw [List.getElem?_eq_none (by omega)] at hp
        simp at hp
      refine ⟨(rs.map Role.shape).take p, r, mid, r', rest, ?_, hr, hb, he, ?_, ?_⟩
      · rw [← hd]
        have hg : (rs.map Role.shape)[p] = r := by
          rw [List.getElem?_eq_getElem hlt] at hp
          exact Option.some.inj hp
        rw [← hg, ← List.drop_eq_getElem_cons hlt, List.take_append_drop]
      · rw [List.length_take]; omega
      · rw [List.length_take]; omega
  · rintro ⟨a, r, mid, r', rest, he, hr, hb, hr', hi, hj⟩
    refine Or.inr ⟨a.length, r, mid.length, ?_, hr, ?_, by omega, by omega⟩
    · rw [he]; simp
    · refine (closeAt_iff 0 mid.length _).mpr ⟨mid, r', rest, ?_, rfl, hb, hr'⟩
      rw [he]
      simp [List.drop_append]

theorem closeAt_of_closed (k d : Nat) (rs : List Shape) (h : depth (k + (d + 1)) rs = some 0) :
    ∃ m, closeAt k rs = some m := by
  induction rs generalizing k with
  | nil => simp [depth] at h
  | cons r rs ih =>
    have next : ∀ k', depth (k' + (d + 1)) rs = some 0 →
        ∃ m, (closeAt k' rs).map (· + 1) = some m := by
      intro k' hk
      obtain ⟨m, hm⟩ := ih k' hk
      exact ⟨m + 1, by rw [hm]; rfl⟩
    cases r with
    | opener =>
      refine next (k + 1) ?_
      rw [show k + 1 + (d + 1) = k + (d + 1) + 1 from by omega]
      exact h
    | plain => cases k with
      | zero => exact next 0 (by simpa [depth] using h)
      | succ k => exact next (k + 1) (by simpa [depth] using h)
    | switch => cases k with
      | zero => exact ⟨0, rfl⟩
      | succ k =>
        refine next (k + 1) ?_
        rw [show k + 1 + (d + 1) = k + d + 1 + 1 from by omega] at h ⊢
        exact h
    | closer => cases k with
      | zero => exact ⟨0, rfl⟩
      | succ k =>
        refine next k ?_
        rw [show k + 1 + (d + 1) = k + (d + 1) + 1 from by omega] at h
        exact h

theorem exists_group_of_starts (a : List Shape) (r : Shape) (rest : List Shape)
    (h : Balanced (a ++ r :: rest)) (hr : r.starts = true) :
    ∃ j, IsGroup (a ++ r :: rest) (a.length + 1) j := by
  rw [Balanced, depth_append, Option.bind_eq_some_iff] at h
  obtain ⟨d, _, hd⟩ := h
  have hopen : ∃ d', depth (0 + (d' + 1)) rest = some 0 := by
    cases r with
    | opener => exact ⟨d, by rw [Nat.zero_add]; exact hd⟩
    | switch => cases d with
      | zero => simp [depth] at hd
      | succ d => exact ⟨d, by rw [Nat.zero_add]; exact hd⟩
    | closer => simp [Shape.starts] at hr
    | plain => simp [Shape.starts] at hr
  obtain ⟨d', hd'⟩ := hopen
  obtain ⟨m, hm⟩ := closeAt_of_closed 0 d' rest hd'
  obtain ⟨mid, r', rest', rfl, rfl, hb, he⟩ := (closeAt_iff 0 m rest).mp hm
  exact ⟨_, a, r, mid, r', rest', rfl, hr, hb, he, rfl, rfl⟩

theorem scan_emits {n : Nat} {st st' : List (α × Nat)} {a rest : List (Role α)} {r : Role α}
    {gs : List (Span α)} (h : scan n st (a ++ r :: rest) = some (gs, st'))
    (hr : r.shape.ends = true) : ∃ g ∈ gs, g.last = n + a.length - 1 := by
  rw [scan_append, Option.bind_eq_some_iff] at h
  obtain ⟨⟨g₁, st₁⟩, _, h⟩ := h
  rw [Option.map_eq_some_iff] at h
  obtain ⟨⟨g₂, st₂⟩, hs, he⟩ := h
  simp only [Prod.mk.injEq] at he
  obtain ⟨rfl, rfl⟩ := he
  suffices ∃ g ∈ g₂, g.last = n + a.length - 1 by
    obtain ⟨g, hg, hl⟩ := this
    exact ⟨g, List.mem_append_right g₁ hg, hl⟩
  cases r with
  | opener x => simp [Role.shape, Shape.ends] at hr
  | plain => simp [Role.shape, Shape.ends] at hr
  | switch f =>
    obtain ⟨e, bot, gs', rfl, rfl, _⟩ := scan_switch_some hs
    exact ⟨_, List.mem_cons_self, rfl⟩
  | closer =>
    obtain ⟨e, bot, gs', rfl, rfl, _⟩ := scan_closer_some hs
    exact ⟨_, List.mem_cons_self, rfl⟩

/-- A line without a label. -/
def Shape.role : Shape → Role Unit
  | .opener => .opener ()
  | .switch => .switch id
  | .closer => .closer
  | .plain => .plain

theorem map_shape_role (rs : List Shape) : (rs.map Shape.role).map Role.shape = rs := by
  have hr : Role.shape ∘ Shape.role = id := by
    funext r
    cases r <;> rfl
  rw [List.map_map, hr, List.map_id]

theorem exists_group_of_ends (a : List Shape) (r : Shape) (rest : List Shape)
    (h : (depth 0 (a ++ r :: rest)).isSome) (hr : r.ends = true) :
    ∃ i, IsGroup (a ++ r :: rest) i a.length := by
  have hd := scan_depth 1 [] ((a ++ r :: rest).map Shape.role)
  rw [map_shape_role, List.length_nil] at hd
  rw [← hd, Option.isSome_map, Option.isSome_iff_exists] at h
  obtain ⟨⟨gs, st⟩, hs⟩ := h
  have hs' := hs
  rw [List.map_append, List.map_cons] at hs'
  obtain ⟨g, hg, hl⟩ := scan_emits hs' (by cases r <;> simp_all [Shape.role, Role.shape])
  have hm := (scan_mem_iff hs g.first g.last).mp (List.mem_map_of_mem hg)
  rw [map_shape_role, hl, List.length_map, show 1 + a.length - 1 = a.length from by omega] at hm
  exact ⟨g.first, hm⟩

theorem IsGroup.lines {rs : List Shape} {i j : Nat} (h : IsGroup rs i j) :
    (∃ r, rs[i - 1]? = some r ∧ r.starts = true) ∧ ∃ r, rs[j]? = some r ∧ r.ends = true := by
  obtain ⟨a, r, mid, r', rest, rfl, hr, _, hr', rfl, rfl⟩ := h
  refine ⟨⟨r, by simp, hr⟩, r', ?_, hr'⟩
  rw [List.getElem?_append_right (by omega),
    show a.length + 1 + mid.length - a.length = mid.length + 1 from by omega]
  simp

/-- The lines of a chain after its opener: the bodies of the branches with the switches between
them, and the closer. -/
def chainTail (body : List (Role α)) : List ((α → α) × List (Role α)) → List (Role α)
  | [] => body ++ [.closer]
  | s :: segs => body ++ .switch s.1 :: chainTail s.2 segs

def branchSpans (n : Nat) (a : α) (body : List (Role α)) :
    List ((α → α) × List (Role α)) → List (Span α)
  | [] => [⟨a, n, n + body.length⟩]
  | s :: segs => ⟨a, n, n + body.length⟩ :: branchSpans (n + body.length + 1) (s.1 a) s.2 segs

theorem scan_chainTail (n : Nat) (a : α) (body : List (Role α))
    (segs : List ((α → α) × List (Role α))) (hb : Balanced (body.map Role.shape))
    (hs : ∀ s ∈ segs, Balanced (s.2.map Role.shape)) :
    ∃ gs, (∀ st, scan (n + 1) ((a, n) :: st) (chainTail body segs) = some (gs, st)) ∧
      ∀ g ∈ branchSpans n a body segs, g ∈ gs := by
  induction segs generalizing n a body with
  | nil =>
    obtain ⟨gb, hgb⟩ := scan_balanced (n + 1) body hb
    have hl : n + 1 + body.length - 1 = n + body.length := by omega
    refine ⟨gb ++ [⟨a, n, n + body.length⟩], fun st => ?_, by simp [branchSpans]⟩
    simp [chainTail, scan_append, hgb, scan, hl]
  | cons s segs ih =>
    obtain ⟨gb, hgb⟩ := scan_balanced (n + 1) body hb
    obtain ⟨gs, hgs, hin⟩ := ih (n + body.length + 1) (s.1 a) s.2 (hs s (by simp))
      fun x hx => hs x (by simp [hx])
    have hn : n + 1 + body.length = n + body.length + 1 := by omega
    refine ⟨gb ++ ⟨a, n, n + body.length⟩ :: gs, fun st => ?_, fun g hg => ?_⟩
    · rw [chainTail, scan_append, hgb]
      simp [scan, hn, hgs]
    · cases List.mem_cons.mp hg with
      | inl he => simp [he]
      | inr hm => simp [hin g hm]

/-- A complete chain among other lines: each of its branches is found as a group. -/
theorem scan_chain {pre post : List (Role α)} {a : α} {body : List (Role α)}
    {segs : List ((α → α) × List (Role α))} {gs : List (Span α)} {st : List (α × Nat)}
    (hb : Balanced (body.map Role.shape)) (hs : ∀ s ∈ segs, Balanced (s.2.map Role.shape))
    (h : scan 1 [] (pre ++ .opener a :: (chainTail body segs ++ post)) = some (gs, st)) :
    ∀ g ∈ branchSpans (pre.length + 1) a body segs, g ∈ gs := by
  obtain ⟨gc, hgc, hin⟩ := scan_chainTail (pre.length + 1) a body segs hb hs
  rw [scan_append] at h
  cases hp : scan 1 [] pre with
  | none => simp [hp] at h
  | some r =>
    rw [hp, Option.bind_some, Nat.add_comm 1, scan, scan_append, hgc, Option.bind_some,
      Option.map_map, Option.map_eq_some_iff] at h
    obtain ⟨r', _, he⟩ := h
    intro g hg
    have hgs := congrArg Prod.fst he
    simp only [Function.comp_apply] at hgs
    rw [← hgs]
    simp [hin g hg]

/-- The number of a line after m lines have been inserted before line k. -/
def moved (k m i : Nat) : Nat := if k ≤ i then i + m else i

def Span.moved (k m : Nat) (g : Span α) : Span α := ⟨g.label, Nesting.moved k m g.first, g.last + m⟩

def movedStack (k m : Nat) (st : List (α × Nat)) : List (α × Nat) :=
  st.map fun e => (e.1, moved k m e.2)

theorem moved_of_le {k m i : Nat} (h : k ≤ i) : moved k m i = i + m := if_pos h

theorem moved_of_lt {k m i : Nat} (h : i < k) : moved k m i = i := if_neg (Nat.not_le.mpr h)

theorem movedStack_push {k n : Nat} (m : Nat) (hk : k ≤ n) (a : α) (st : List (α × Nat)) :
    movedStack k m ((a, n) :: st) = (a, n + m) :: movedStack k m st := by
  simp [movedStack, moved_of_le hk]

theorem scan_moved {k m n : Nat} (hk : k ≤ n) (hn : 1 ≤ n) (st : List (α × Nat))
    (rs : List (Role α)) :
    scan (n + m) (movedStack k m st) rs =
      (scan n st rs).map fun r => (r.1.map (Span.moved k m), movedStack k m r.2) := by
  induction rs generalizing n st with
  | nil => simp [scan]
  | cons r rs ih =>
    have hnext : n + m + 1 = n + 1 + m := by omega
    have hlast : n + m - 1 = n - 1 + m := by omega
    cases r with
    | opener a => rw [scan, ← movedStack_push m hk, hnext, ih (by omega) (by omega), scan]
    | plain => rw [scan, hnext, ih (by omega) (by omega), scan]
    | switch f =>
      cases st with
      | nil => rfl
      | cons e st =>
        rw [movedStack, List.map_cons, scan, ← movedStack, ← movedStack_push m hk, hnext,
          ih (by omega) (by omega), scan]
        cases scan (n + 1) ((f e.1, n) :: st) rs <;> simp [Span.moved, hlast]
    | closer =>
      cases st with
      | nil => rfl
      | cons e st =>
        rw [movedStack, List.map_cons, scan, ← movedStack, hnext, ih (by omega) (by omega), scan]
        cases scan (n + 1) st rs <;> simp [Span.moved, hlast]

theorem scan_descending {n : Nat} {st : List (α × Nat)} {rs : List (Role α)}
    {gs : List (Span α)} {st' : List (α × Nat)} (hd : Descending n st)
    (h : scan n st rs = some (gs, st')) : Descending (n + rs.length) st' := by
  induction rs generalizing n st gs st' with
  | nil =>
    simp only [scan, Option.some.injEq, Prod.mk.injEq] at h
    rw [← h.2]
    exact hd
  | cons r rs ih =>
    rw [List.length_cons, Nat.add_comm rs.length, ← Nat.add_assoc]
    cases r with
    | opener a => exact ih (hd.push a) h
    | plain => exact ih hd.weaken h
    | switch f =>
      obtain ⟨e, bot, gs', rfl, rfl, hs⟩ := scan_switch_some h
      exact ih (hd.pop.push (f e.1)) hs
    | closer =>
      obtain ⟨e, bot, gs', rfl, rfl, hs⟩ := scan_closer_some h
      exact ih hd.pop.weaken hs

/-- Plain lines between two parts of a text leave the groups that end in the first part, and
move the others. -/
theorem scan_insert {a ps b : List (Role α)} {gs : List (Span α)} {st' : List (α × Nat)}
    (hps : ∀ r ∈ ps, r = .plain) (h : scan 1 [] (a ++ b) = some (gs, st')) :
    ∃ before after st'', gs = before ++ after ∧
      scan 1 [] (a ++ (ps ++ b)) =
        some (before ++ after.map (Span.moved (a.length + 1) ps.length), st'') ∧
      (∀ g ∈ before, g.last < a.length) ∧ ∀ g ∈ after, a.length ≤ g.last := by
  rw [scan_append, Option.bind_eq_some_iff] at h
  obtain ⟨⟨before, st⟩, hbefore, h⟩ := h
  rw [Option.map_eq_some_iff] at h
  obtain ⟨⟨after, st₁⟩, hafter, he⟩ := h
  rw [Prod.mk.injEq] at he
  have hstack : movedStack (a.length + 1) ps.length st = st := by
    have hd := scan_descending ⟨List.Pairwise.nil, by simp⟩ hbefore
    conv_rhs => rw [← List.map_id st]
    refine List.map_congr_left fun e he => ?_
    have hlt := hd.2 e he
    rw [moved_of_lt (by omega)]
    rfl
  refine ⟨before, after, movedStack (a.length + 1) ps.length st₁, he.1.symm, ?_, ?_, ?_⟩
  · have hmove := scan_moved (Nat.add_comm a.length 1).le (by omega) st b (m := ps.length)
    rw [hstack, hafter, Option.map_some] at hmove
    rw [scan_append, hbefore, Option.bind_some, scan_plain _ _ ps b hps, hmove, Option.map_some]
  · intro g hg
    have hb := (scan_bounds le_rfl hbefore g hg).2.2
    omega
  · intro g hg
    have hb := (scan_bounds (by omega) hafter g hg).2.1
    omega

end OpenedExtraction.Nesting
