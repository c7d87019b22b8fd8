import OpenedExtraction.CallGraph

/-! Resolving the requested functions against the function table:
build_fn_list_to_extract, and what a whole pass over the table leaves behind. -/
namespace OpenedExtraction.FunctionTable
open OpenedExtraction.PyText OpenedExtraction.PreprocessorMap OpenedExtraction.ExtractAndDump
open OpenedExtraction.CallGraph

/-- One element of a definition list of func_info. -/
structure FuncDefn where
  file : Str
  startLine : Int
  endLine : Int
  deriving DecidableEq, Repr

abbrev FuncTable := OrderedDict Str (List FuncDefn)

structure BuildState (fs : FS) where
  fns : OrderedDict Str (Option Defn)
  presDict : PresDict fs
  defineFiles : Finset Str

def keyOf (d : Defn) : Str := fnKey d.funcName d.srcFile

/-- The body of the inner loop. -/
def resolveDefn {fs : FS} (st : BuildState fs) (d : Defn) : Except PyErr (BuildState fs) := do
  let presDict ← st.presDict.ensure d.srcFile
  if keyOf d ∈ st.fns.keys then
    .ok { fns := st.fns.set (keyOf d) (some d)
          presDict := presDict
          defineFiles := if endswith d.srcFile cExt then insert d.srcFile st.defineFiles
            else st.defineFiles }
  else .ok { st with presDict := presDict }

def FuncDefn.named (name : Str) (fd : FuncDefn) : Defn :=
  ⟨name, fd.file, fd.startLine, fd.endLine⟩

def buildFnListToExtract {fs : FS} (table : FuncTable) (st : BuildState fs) :
    Except PyErr (BuildState fs) :=
  table.items.foldlM (fun st kv =>
    (kv.2.map (FuncDefn.named kv.1)).foldlM resolveDefn st) st

def entries (table : FuncTable) : List Defn :=
  table.items.flatMap fun kv => kv.2.map (FuncDefn.named kv.1)

theorem build_eq {fs : FS} (table : FuncTable) (st : BuildState fs) :
    buildFnListToExtract table st = (entries table).foldlM resolveDefn st :=
  foldlM_flatMap resolveDefn _ table.items st

def ScanOk (fs : FS) (f : Str) : Prop := ∃ p, createPreprocessorMapOf fs f = .ok p

theorem ensure_spec {fs : FS} {d d' : PresDict fs} {f : Str} (h : d.ensure f = .ok d') :
    ScanOk fs f ∧ ∀ g, g ∈ d'.dict.keys ↔ g = f ∨ g ∈ d.dict.keys := by
  by_cases hf : f ∈ d.dict.keys
  · rw [PresDict.ensure, if_pos hf, Except.ok.injEq] at h
    obtain ⟨p, hp⟩ := (d.dict.mem_keys_iff f).mp hf
    refine ⟨⟨p, d.scanned f p hp⟩, fun g => ?_⟩
    rw [← h]
    refine ⟨Or.inr, fun hg => ?_⟩
    cases hg with
    | inl he => rw [he]; exact hf
    | inr hm => exact hm
  · rw [PresDict.ensure, if_neg hf] at h
    split at h
    · simp at h
    · next p hm =>
      rw [← Except.ok.inj h]
      exact ⟨⟨p, hm⟩, fun g => d.dict.mem_keys_set f g p⟩

theorem ensure_ok {fs : FS} (d : PresDict fs) {f : Str} (h : ScanOk fs f) :
    ∃ d', d.ensure f = .ok d' := by
  obtain ⟨p, hp⟩ := h
  by_cases hf : f ∈ d.dict.keys
  · exact ⟨d, by rw [PresDict.ensure, if_pos hf]⟩
  · rw [PresDict.ensure, if_neg hf]
    split
    · next e he => simp [hp] at he
    · exact ⟨_, rfl⟩

theorem resolveDefn_spec {fs : FS} {st st' : BuildState fs} {d : Defn}
    (h : resolveDefn st d = .ok st') :
    ScanOk fs d.srcFile ∧
    (∀ g, g ∈ st'.presDict.dict.keys ↔ g = d.srcFile ∨ g ∈ st.presDict.dict.keys) ∧
    st'.fns = (if keyOf d ∈ st.fns.keys then st.fns.set (keyOf d) (some d) else st.fns) ∧
    st'.defineFiles = (if keyOf d ∈ st.fns.keys ∧ endswith d.srcFile cExt = true
      then insert d.srcFile st.defineFiles else st.defineFiles) := by
  rw [resolveDefn, bind_eq_ok] at h
  obtain ⟨pd, hpd, h⟩ := h
  obtain ⟨hs, hk⟩ := ensure_spec hpd
  by_cases hkey : keyOf d ∈ st.fns.keys
  · rw [if_pos hkey, Except.ok.injEq] at h
    rw [← h]
    refine ⟨hs, hk, by rw [if_pos hkey], ?_⟩
    by_cases hc : endswith d.srcFile cExt <;> simp [hkey, hc]
  · rw [if_neg hkey, Except.ok.injEq] at h
    rw [← h]
    exact ⟨hs, hk, by rw [if_neg hkey], by simp [hkey]⟩

theorem resolveDefn_ok {fs : FS} (st : BuildState fs) {d : Defn} (h : ScanOk fs d.srcFile) :
    ∃ st', resolveDefn st d = .ok st' := by
  obtain ⟨pd, hpd⟩ := ensure_ok st.presDict h
  by_cases hkey : keyOf d ∈ st.fns.keys
  · exact ⟨_, by rw [resolveDefn, hpd]; simp only [bind, Except.bind, if_pos hkey]; rfl⟩
  · exact ⟨_, by rw [resolveDefn, hpd]; simp only [bind, Except.bind, if_neg hkey]; rfl⟩

theorem resolveDefn_keys {fs : FS} {st st' : BuildState fs} {d : Defn}
    (h : resolveDefn st d = .ok st') : st'.fns.keys = st.fns.keys := by
  rw [(resolveDefn_spec h).2.2.1]
  by_cases hkey : keyOf d ∈ st.fns.keys
  · rw [if_pos hkey, OrderedDict.keys_set_of_mem _ _ hkey]
  · rw [if_neg hkey]

/-- The last definition with the key: the one that a pass leaves bound. -/
def lastFor : List Defn → Str → Option Defn
  | [], _ => none
  | d :: ds, k => (lastFor ds k).or (if keyOf d = k then some d else none)

theorem lastFor_mem {ds : List Defn} {k : Str} {d : Defn} (h : lastFor ds k = some d) :
    d ∈ ds ∧ keyOf d = k := by
  induction ds with
  | nil => simp [lastFor] at h
  | cons x ds ih =>
    cases hl : lastFor ds k with
    | some y =>
      rw [lastFor, hl, Option.some_or] at h
      rw [hl] at ih
      exact ⟨List.mem_cons_of_mem x (ih h).1, (ih h).2⟩
    | none =>
      rw [lastFor, hl, Option.none_or] at h
      by_cases hk : keyOf x = k
      · rw [if_pos hk, Option.some.injEq] at h
        rw [← h]
        exact ⟨List.mem_cons_self, hk⟩
      · rw [if_neg hk] at h
        simp at h

theorem lastFor_eq_none {ds : List Defn} {k : Str} :
    lastFor ds k = none ↔ ∀ d ∈ ds, keyOf d ≠ k := by
  induction ds with
  | nil => simp [lastFor]
  | cons x ds ih =>
    rw [lastFor, Option.or_eq_none_iff, ih, List.forall_mem_cons]
    by_cases hk : keyOf x = k <;> simp [hk]

theorem pass_ok_iff {fs : FS} (ds : List Defn) (st : BuildState fs) :
    (∃ st', ds.foldlM resolveDefn st = .ok st') ↔ ∀ d ∈ ds, ScanOk fs d.srcFile := by
  refine foldlM_returns_iff (fun st d => ⟨fun h => ?_, resolveDefn_ok st⟩) ds st
  obtain ⟨st', h⟩ := h
  exact (resolveDefn_spec h).1

theorem pass_presDict {fs : FS} {ds : List Defn} {st st' : BuildState fs}
    (h : ds.foldlM resolveDefn st = .ok st') (g : Str) :
    g ∈ st'.presDict.dict.keys ↔ (∃ d ∈ ds, d.srcFile = g) ∨ g ∈ st.presDict.dict.keys := by
  induction ds generalizing st with
  | nil =>
    rw [foldlM_nil_inv h]
    simp
  | cons d ds ih =>
    obtain ⟨st₁, h₁, h⟩ := foldlM_cons_inv h
    rw [ih h, (resolveDefn_spec h₁).2.1 g, List.exists_mem_cons_iff, eq_comm, or_assoc,
      or_left_comm]

theorem pass_keys {fs : FS} {ds : List Defn} {st st' : BuildState fs}
    (h : ds.foldlM resolveDefn st = .ok st') : st'.fns.keys = st.fns.keys :=
  foldlM_invariant (fun s => s.fns.keys = st.fns.keys)
    (fun _ _ _ _ ha hb => (resolveDefn_keys hb).trans ha) h rfl

/-- A pass binds every requested key to the last definition that has it. -/
theorem pass_fns {fs : FS} {ds : List Defn} {st st' : BuildState fs}
    (h : ds.foldlM resolveDefn st = .ok st') {k : Str} (hk : k ∈ st.fns.keys) :
    st'.fns.get? k = ((lastFor ds k).map some).or (st.fns.get? k) := by
  induction ds generalizing st with
  | nil =>
    rw [foldlM_nil_inv h]
    simp [lastFor]
  | cons d ds ih =>
    obtain ⟨st₁, h₁, h⟩ := foldlM_cons_inv h
    have hk₁ : k ∈ st₁.fns.keys := by rw [resolveDefn_keys h₁]; exact hk
    have hg : st₁.fns.get? k = ((if keyOf d = k then some d else none).map some).or
        (st.fns.get? k) := by
      rw [(resolveDefn_spec h₁).2.2.1]
      by_cases hd : keyOf d = k
      · rw [if_pos (by rw [hd]; exact hk), OrderedDict.get?_set]
        simp [hd]
      · by_cases hm : keyOf d ∈ st.fns.keys
        · rw [if_pos hm, OrderedDict.get?_set]
          simp [hd, Ne.symm hd]
        · rw [if_neg hm]
          simp [hd]
    rw [ih h hk₁, hg, lastFor]
    cases lastFor ds k <;> simp

theorem pass_defineFiles {fs : FS} {ds : List Defn} {st st' : BuildState fs}
    (h : ds.foldlM resolveDefn st = .ok st') (g : Str) :
    g ∈ st'.defineFiles ↔
      (∃ d ∈ ds, keyOf d ∈ st.fns.keys ∧ endswith d.srcFile cExt = true ∧ d.srcFile = g) ∨
      g ∈ st.defineFiles := by
  induction ds generalizing st with
  | nil =>
    rw [foldlM_nil_inv h]
    simp
  | cons d ds ih =>
    obtain ⟨st₁, h₁, h⟩ := foldlM_cons_inv h
    rw [ih h, resolveDefn_keys h₁, (resolveDefn_spec h₁).2.2.2, List.exists_mem_cons_iff]
    by_cases hc : keyOf d ∈ st.fns.keys ∧ endswith d.srcFile cExt = true
    · rw [if_pos hc, Finset.mem_insert, eq_comm]
      simp only [hc.1, hc.2, true_and]
      rw [or_assoc, or_left_comm]
    · have hn : ¬ (keyOf d ∈ st.fns.keys ∧ endswith d.srcFile cExt = true ∧ d.srcFile = g) :=
        fun hd => hc ⟨hd.1, hd.2.1⟩
      rw [if_neg hc, or_iff_right hn]

def Bound (fns : OrderedDict Str (Option Defn)) : Prop :=
  ∀ k d, fns.get? k = some (some d) → keyOf d = k

theorem mem_written_iff {fns : OrderedDict Str (Option Defn)} (hb : Bound fns) (d : Defn) :
    d ∈ written fns ↔
      fns.get? (keyOf d) = some (some d) ∧ endswith d.srcFile hExt = false := by
  simp only [written, List.mem_filterMap, List.mem_map, Option.filter_eq_some_iff,
    Bool.not_eq_true']
  constructor
  · intro h
    obtain ⟨v, ⟨kv, hkv, hv⟩, hvd, hh⟩ := h
    have hg := fns.get?_of_mem (show (kv.1, kv.2) ∈ fns.items from hkv)
    rw [hv, hvd] at hg
    rw [hb kv.1 d hg]
    exact ⟨hg, hh⟩
  · intro h
    obtain ⟨hg, hh⟩ := h
    exact ⟨some d, ⟨(keyOf d, some d), fns.mem_of_get? hg, rfl⟩, rfl, hh⟩

theorem written_nodup {fns : OrderedDict Str (Option Defn)} (hb : Bound fns) :
    (written fns).Nodup := by
  have hitems : ∀ kv ∈ fns.items, ∀ d, kv.2 = some d → keyOf d = kv.1 := by
    intro kv hkv d hd
    have hg := fns.get?_of_mem (show (kv.1, kv.2) ∈ fns.items from hkv)
    rw [hd] at hg
    exact hb kv.1 d hg
  have hsub : ∀ items : List (Str × Option Defn),
      (∀ kv ∈ items, ∀ d, kv.2 = some d → keyOf d = kv.1) →
      (((items.map Prod.snd).filterMap
        (Option.filter fun d => !endswith d.srcFile hExt)).map keyOf).Sublist
        (items.map Prod.fst) := by
    intro items
    induction items with
    | nil => simp
    | cons kv items ih =>
      intro hi
      have ht := ih fun x hx => hi x (List.mem_cons_of_mem kv hx)
      cases hv : kv.2 with
      | none => simpa [hv] using ht.cons kv.1
      | some d =>
        have hk := hi kv (by simp) d hv
        by_cases hh : endswith d.srcFile hExt
        · simpa [hv, hh, Option.filter] using ht.cons kv.1
        · simpa [hv, hh, hk, Option.filter] using ht.cons_cons kv.1
  exact List.Nodup.of_map keyOf (fns.nodup.sublist (hsub fns.items hitems))

theorem pass_bound {fs : FS} {ds : List Defn} {st st' : BuildState fs}
    (h : ds.foldlM resolveDefn st = .ok st') (hu : Unresolved st.fns) : Bound st'.fns := by
  intro k d hg
  have hk : k ∈ st.fns.keys := by
    rw [← pass_keys h]
    exact (st'.fns.mem_keys_iff k).mpr ⟨_, hg⟩
  rw [pass_fns h hk] at hg
  cases hl : lastFor ds k with
  | none =>
    rw [hl, Option.map_none, Option.none_or] at hg
    simpa using hu k (some d) hg
  | some d' =>
    rw [hl, Option.map_some, Option.some_or, Option.some.injEq, Option.some.injEq] at hg
    rw [← hg]
    exact (lastFor_mem hl).2

/-- What is written after a pass: for every requested key the last definition with it. -/
theorem mem_written_pass {fs : FS} {ds : List Defn} {st st' : BuildState fs}
    (h : ds.foldlM resolveDefn st = .ok st') (hu : Unresolved st.fns) (d : Defn) :
    d ∈ written st'.fns ↔ keyOf d ∈ st.fns.keys ∧ lastFor ds (keyOf d) = some d ∧
      endswith d.srcFile hExt = false := by
  rw [mem_written_iff (pass_bound h hu)]
  constructor
  · intro h
    obtain ⟨hg, hh⟩ := h
    have hk : keyOf d ∈ st.fns.keys := by
      rw [← pass_keys h]
      exact (st'.fns.mem_keys_iff _).mpr ⟨_, hg⟩
    rw [pass_fns h hk] at hg
    refine ⟨hk, ?_, hh⟩
    cases hl : lastFor ds (keyOf d) with
    | none =>
      rw [hl, Option.map_none, Option.none_or] at hg
      simpa using hu _ (some d) hg
    | some d' =>
      rw [hl, Option.map_some, Option.some_or, Option.some.injEq] at hg
      exact hg
  · intro h
    obtain ⟨hk, hl, hh⟩ := h
    rw [pass_fns h hk, hl]
    exact ⟨rfl, hh⟩

theorem written_scanned {fs : FS} {ds : List Defn} {st st' : BuildState fs}
    (h : ds.foldlM resolveDefn st = .ok st') (hu : Unresolved st.fns) :
    ∀ d ∈ written st'.fns, d.srcFile ∈ st'.presDict.dict.keys := by
  intro d hd
  obtain ⟨_, hl, _⟩ := (mem_written_pass h hu d).mp hd
  exact (pass_presDict h d.srcFile).mpr (Or.inl ⟨d, (lastFor_mem hl).1, rfl⟩)

end OpenedExtraction.FunctionTable
