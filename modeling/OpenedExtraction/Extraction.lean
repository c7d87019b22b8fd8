import OpenedExtraction.FunctionTable
import Mathlib.Data.List.Nodup

/-! The extraction of functions as a whole: call graph, function table and output. -/
namespace OpenedExtraction.Extraction
open OpenedExtraction.PyText OpenedExtraction.PreprocessorMap OpenedExtraction.ExtractAndDump
open OpenedExtraction.CallGraph OpenedExtraction.FunctionTable

/-- build_fn_list_to_extract followed by dumpFns: the extracted text and the function
list. -/
def extract {fs : FS} (table : FuncTable) (st : BuildState fs) : Except PyErr (Str × Str) := do
  let st ← buildFnListToExtract table st
  let out ← dumpFns fs st.presDict st.fns
  .ok (dumpText out, dumpList out)

theorem endswith_fnKey (name file : Str) : endswith (fnKey name file) hExt = endswith file hExt := by
  have hs : hExt <:+ name ++ ':' :: file ↔ hExt <:+ file := by
    constructor
    · intro h
      have hf : ':' :: file <:+ name ++ ':' :: file := List.suffix_append name (':' :: file)
      cases List.suffix_or_suffix_of_suffix h hf with
      | inl hs =>
        cases List.suffix_cons_iff.mp hs with
        | inl he => simp [hExt] at he
        | inr hs => exact hs
      | inr hs =>
        have hm : ':' ∈ hExt := hs.subset (by simp)
        exact absurd hm (by decide)
    · intro h
      exact h.trans ((List.suffix_cons ':' file).trans (List.suffix_append name (':' :: file)))
  rw [Bool.eq_iff_iff]
  simpa [endswith, fnKey, List.isSuffixOf_iff_suffix] using hs

theorem endswith_of_key {d d' : Defn} (h : keyOf d = keyOf d') :
    endswith d.srcFile hExt = endswith d'.srcFile hExt := by
  rw [← endswith_fnKey d.funcName, ← endswith_fnKey d'.funcName d'.srcFile]
  exact congrArg (fun k => endswith k hExt) h

section Passes
variable {fs : FS} {ds ds' : List Defn} {st st₁ st₂ : BuildState fs}

/-- fns depends on the last definition of each requested key only. -/
theorem pass_fns_eq (h₁ : ds.foldlM resolveDefn st = .ok st₁)
    (h₂ : ds'.foldlM resolveDefn st = .ok st₂)
    (hlast : ∀ k ∈ st.fns.keys, lastFor ds k = lastFor ds' k) : st₁.fns = st₂.fns := by
  have hk : st₁.fns.keys = st₂.fns.keys := (pass_keys h₁).trans (pass_keys h₂).symm
  refine OrderedDict.ext_get? hk fun k => ?_
  by_cases hm : k ∈ st.fns.keys
  · rw [pass_fns h₁ hm, pass_fns h₂ hm, hlast k hm]
  · have hn₁ : k ∉ st₁.fns.keys := by rwa [pass_keys h₁]
    have hn₂ : k ∉ st₂.fns.keys := by rwa [pass_keys h₂]
    rw [(st₁.fns.get?_eq_none k).mpr hn₁, (st₂.fns.get?_eq_none k).mpr hn₂]

theorem definitionBlock_eq (p q : PresDict fs) {d : Defn} (hp : d.srcFile ∈ p.dict.keys)
    (hq : d.srcFile ∈ q.dict.keys) : definitionBlock p d = definitionBlock q d := by
  have hl : p.lookup d.srcFile = q.lookup d.srcFile := by
    rw [PresDict.lookup, PresDict.lookup, OrderedDict.getD, OrderedDict.getD,
      PresDict.get?_eq p q (iff_of_true hp hq)]
  rw [definitionBlock, definitionBlock, hl]

theorem pass_dumpFns (h₁ : ds.foldlM resolveDefn st = .ok st₁)
    (h₂ : ds'.foldlM resolveDefn st = .ok st₂) (hu : Unresolved st.fns)
    (hlast : ∀ k ∈ st.fns.keys, lastFor ds k = lastFor ds' k) :
    ∃ out, dumpFns fs st₁.presDict st₁.fns = .ok out ∧
      dumpFns fs st₂.presDict st₂.fns = .ok out := by
  refine ⟨_, dumpFns_scanned _ _ (written_scanned h₁ hu), ?_⟩
  rw [dumpFns_scanned _ _ (written_scanned h₂ hu), pass_fns_eq h₁ h₂ hlast]
  refine congrArg _ (List.map_congr_left fun d hd => ?_)
  have hd₁ : d ∈ written st₁.fns := by rwa [pass_fns_eq h₁ h₂ hlast]
  rw [definitionBlock_eq st₂.presDict st₁.presDict (written_scanned h₂ hu d hd)
    (written_scanned h₁ hu d hd₁)]

end Passes

/-- The lines of a definition are in exactly one of the written blocks. -/
def WrittenOnce (fs : FS) (out : List Dumped) (d : Defn) : Prop :=
  (out.map Dumped.defn).count d = 1 ∧
    ∀ x ∈ out, x.defn = d → ∃ t val, fs d.srcFile = .text t ∧
      x.block = blockText val d.srcFile d.startLine d.endLine (readlines (universalNewlines t))

/-- No two definitions of the table share a requested key outside headers. -/
def OnePerKey (table : FuncTable) (requested : List Str) : Prop :=
  ∀ d ∈ entries table, ∀ d' ∈ entries table, keyOf d ∈ requested →
    endswith d.srcFile hExt = false → keyOf d' = keyOf d → d' = d

theorem writtenOnce_iff {fs : FS} {ds : List Defn} {st st' : BuildState fs}
    (h : ds.foldlM resolveDefn st = .ok st') (hu : Unresolved st.fns) (d : Defn) :
    WrittenOnce fs ((written st'.fns).map fun d =>
        ⟨d, entryLine d, definitionBlock st'.presDict d⟩) d ↔ d ∈ written st'.fns := by
  have hmap : ((written st'.fns).map fun d =>
      (⟨d, entryLine d, definitionBlock st'.presDict d⟩ : Dumped)).map Dumped.defn =
        written st'.fns := by
    simp [List.map_map, Function.comp_def]
  rw [WrittenOnce, hmap]
  constructor
  · intro hw
    exact List.count_pos_iff.mp (by rw [hw.1]; exact Nat.one_pos)
  · intro hd
    refine ⟨List.count_eq_one_of_mem (written_nodup (pass_bound h hu)) hd, ?_⟩
    intro x hx hxd
    obtain ⟨d', _, rfl⟩ := List.mem_map.mp hx
    obtain ⟨t, ht, _⟩ := st'.presDict.text_of_mem (written_scanned h hu d hd)
    exact ⟨t, _, ht, by rw [← hxd] at ht ⊢; simp [definitionBlock, ht]; rfl⟩

/-- All requested definitions outside headers are written, each exactly once, if and only
if no two of them share their key. -/
theorem requested_written_once_iff (fs : FS) (lines : List Str) (g : GraphState)
    (table : FuncTable) (presDict : PresDict fs) (defineFiles : Finset Str) (st : BuildState fs)
    (hparse : parseFunctionCallGraph fs lines .empty = .ok g)
    (hbuild : buildFnListToExtract table ⟨g.fns, presDict, defineFiles⟩ = .ok st) :
    ∃ out, dumpFns fs st.presDict st.fns = .ok out ∧
      ((∀ d ∈ entries table, keyOf d ∈ g.fns.keys → endswith d.srcFile hExt = false →
          WrittenOnce fs out d) ↔ OnePerKey table g.fns.keys) := by
  have hu := parse_unresolved hparse
  rw [build_eq] at hbuild
  refine ⟨_, dumpFns_scanned _ _ (written_scanned hbuild hu), ?_⟩
  simp only [writtenOnce_iff hbuild hu, mem_written_pass hbuild hu]
  constructor
  · intro hall d hd d' hd' hk hh hkey
    have hk' : keyOf d' ∈ g.fns.keys := by rwa [hkey]
    have hh' : endswith d'.srcFile hExt = false := by rwa [endswith_of_key hkey]
    have h₁ := (hall d hd hk hh).2.1
    have h₂ := (hall d' hd' hk' hh').2.1
    rw [hkey, h₁, Option.some.injEq] at h₂
    exact h₂.symm
  · intro hone d hd hk hh
    refine ⟨hk, ?_, hh⟩
    cases hl : lastFor (entries table) (keyOf d) with
    | none => exact absurd rfl (lastFor_eq_none.mp hl d hd)
    | some d' =>
      obtain ⟨hd', hkey⟩ := lastFor_mem hl
      rw [hone d hd d' hd' hk hh hkey]

/-- A function that its file defines twice, as in the two branches of a conditional. -/
def twiceFile : FS := filesOf [("a.c".toList, "int f;\nint f;\n".toList)]

def twiceGraph : List Str := readlines "\x7b\nf,1,a.c,1\n\x7d\n".toList

def twiceTable : FuncTable :=
  ⟨[("f".toList, [⟨"a.c".toList, 1, 1⟩, ⟨"a.c".toList, 2, 2⟩])], by decide⟩

def twiceState : GraphState :=
  { GraphState.empty with fns := ⟨[("f:a.c".toList, none)], by decide⟩ }

def twiceDict : PresDict twiceFile :=
  (PresDict.empty twiceFile).add "a.c".toList [] (by decide +kernel)

def twiceBuilt : BuildState twiceFile :=
  ⟨⟨[("f:a.c".toList, some ⟨"f".toList, "a.c".toList, 2, 2⟩)], by decide⟩, twiceDict,
    {"a.c".toList}⟩

theorem requested_written_once_iff_twice :
    ∃ out, dumpFns twiceFile twiceBuilt.presDict twiceBuilt.fns = .ok out ∧
      ((∀ d ∈ entries twiceTable, keyOf d ∈ twiceState.fns.keys →
          endswith d.srcFile hExt = false → WrittenOnce twiceFile out d) ↔
        OnePerKey twiceTable twiceState.fns.keys) :=
  requested_written_once_iff twiceFile twiceGraph twiceState twiceTable (.empty twiceFile) ∅
    twiceBuilt rfl rfl

/-- Of the two definitions of f in a.c only the second one is written. -/
theorem first_definition_lost :
    ∃ g st out, parseFunctionCallGraph twiceFile twiceGraph .empty = .ok g ∧
      buildFnListToExtract twiceTable ⟨g.fns, .empty twiceFile, ∅⟩ = .ok st ∧
      dumpFns twiceFile st.presDict st.fns = .ok out ∧
      ∃ d ∈ entries twiceTable, keyOf d ∈ g.fns.keys ∧ endswith d.srcFile hExt = false ∧
        (out.map Dumped.defn).count d = 0 ∧ ¬ WrittenOnce twiceFile out d := by
  refine ⟨twiceState, twiceBuilt, _, rfl, rfl, rfl, ⟨"f".toList, "a.c".toList, 1, 1⟩, ?_⟩
  have hc : ([(⟨"f".toList, "a.c".toList, 2, 2⟩ : Defn)]).count
      ⟨"f".toList, "a.c".toList, 1, 1⟩ = 0 := by decide
  exact ⟨by decide, by decide, by decide, hc, fun hw => absurd (hc.symm.trans hw.1) (by decide)⟩

/-- The tables have the same definitions, in the same order, for every requested key. -/
def AgreeOn (requested : List Str) (t₁ t₂ : FuncTable) : Prop :=
  ∀ k ∈ requested, (entries t₁).filter (fun d => keyOf d = k) =
    (entries t₂).filter (fun d => keyOf d = k)

theorem lastFor_filter (ds : List Defn) (k : Str) :
    lastFor (ds.filter fun d => keyOf d = k) k = lastFor ds k := by
  induction ds with
  | nil => rfl
  | cons d ds ih =>
    by_cases hk : keyOf d = k
    · simp [hk, lastFor, ih]
    · simp [hk, lastFor, ih]

theorem AgreeOn.lastFor {requested : List Str} {t₁ t₂ : FuncTable}
    (h : AgreeOn requested t₁ t₂) : ∀ k ∈ requested,
      lastFor (entries t₁) k = lastFor (entries t₂) k := by
  intro k hk
  rw [← lastFor_filter (entries t₁), ← lastFor_filter (entries t₂), h k hk]

/-- Every file that the table names can be scanned: its openers have names and no #else,
#elif or #endif that the scanner recognises comes without an opener before it. -/
def AllScannable (fs : FS) (table : FuncTable) : Prop :=
  ∀ d ∈ entries table, ∀ t, fs d.srcFile = .text t →
    Scannable (readlines (universalNewlines t))

def AllReadable (fs : FS) (table : FuncTable) : Prop :=
  ∀ d ∈ entries table, ∃ t, fs d.srcFile = .text t

theorem build_ok_iff {fs : FS} {table : FuncTable} (hr : AllReadable fs table)
    (st : BuildState fs) :
    (∃ st', buildFnListToExtract table st = .ok st') ↔ AllScannable fs table := by
  rw [build_eq, pass_ok_iff]
  refine forall_congr' fun d => forall_congr' fun hd => ?_
  obtain ⟨t, ht⟩ := hr d hd
  simp only [ScanOk, createPreprocessorMapOf, openLines, ht, Node.text.injEq, forall_eq',
    scannable_iff]
  rfl

theorem extract_none_iff {fs : FS} {table : FuncTable} (hr : AllReadable fs table)
    (st : BuildState fs) (hu : Unresolved st.fns) :
    (extract table st).toOption = none ↔ ¬ AllScannable fs table := by
  rw [← build_ok_iff hr st, extract]
  cases hb : buildFnListToExtract table st with
  | error e => simp [bind, Except.bind, Except.toOption]
  | ok st' =>
    rw [build_eq] at hb
    simp [dumpFns_scanned _ _ (written_scanned hb hu), bind, Except.bind, Except.toOption]

/-- Tables that agree on what is requested have the same outcome if and only if both or
neither of them name a file that cannot be scanned. -/
theorem unrequested_irrelevant_iff (fs : FS) (lines : List Str) (g : GraphState)
    (t₁ t₂ : FuncTable) (presDict : PresDict fs) (defineFiles : Finset Str)
    (hparse : parseFunctionCallGraph fs lines .empty = .ok g)
    (hagree : AgreeOn g.fns.keys t₁ t₂)
    (hr₁ : AllReadable fs t₁) (hr₂ : AllReadable fs t₂) :
    (extract t₁ ⟨g.fns, presDict, defineFiles⟩).toOption =
        (extract t₂ ⟨g.fns, presDict, defineFiles⟩).toOption ↔
      (AllScannable fs t₁ ↔ AllScannable fs t₂) := by
  have hu := parse_unresolved hparse
  have hn₁ := extract_none_iff hr₁ ⟨g.fns, presDict, defineFiles⟩ hu
  have hn₂ := extract_none_iff hr₂ ⟨g.fns, presDict, defineFiles⟩ hu
  constructor
  · intro he
    rw [he, hn₂] at hn₁
    exact (not_iff_not.mp hn₁).symm
  · intro hs
    by_cases h₁ : AllScannable fs t₁
    · obtain ⟨st₁, hb₁⟩ := (build_ok_iff hr₁ ⟨g.fns, presDict, defineFiles⟩).mpr h₁
      obtain ⟨st₂, hb₂⟩ := (build_ok_iff hr₂ ⟨g.fns, presDict, defineFiles⟩).mpr (hs.mp h₁)
      rw [extract, extract, hb₁, hb₂]
      rw [build_eq] at hb₁ hb₂
      obtain ⟨out, ho₁, ho₂⟩ := pass_dumpFns hb₁ hb₂ hu hagree.lastFor
      simp only [bind, Except.bind, ho₁, ho₂]
    · rw [hn₁.mpr h₁, hn₂.mpr (fun h₂ => h₁ (hs.mpr h₂))]

/-- f is requested from a.c; h.h is a header whose #if is not recognised and whose #endif
is. -/
def headerFiles : FS := filesOf
  [("a.c".toList, "int f;\n".toList), ("h.h".toList, "#if(X)\nint g;\n#endif \n".toList)]

def headerGraph : List Str := readlines "\x7b\nf,1,a.c,1\n\x7d\n".toList

def headerState : GraphState :=
  { GraphState.empty with fns := ⟨[("f:a.c".toList, none)], by decide⟩ }

def onlyF : FuncTable := ⟨[("f".toList, [⟨"a.c".toList, 1, 1⟩])], by decide⟩

def withG : FuncTable :=
  ⟨[("f".toList, [⟨"a.c".toList, 1, 1⟩]), ("g".toList, [⟨"h.h".toList, 2, 2⟩])], by decide⟩

theorem headerTables_agree : AgreeOn headerState.fns.keys onlyF withG := by
  unfold AgreeOn
  decide

theorem headerTables_readable : AllReadable headerFiles onlyF ∧ AllReadable headerFiles withG := by
  constructor
  · simpa [AllReadable, onlyF, entries, FuncDefn.named] using ⟨_, rfl⟩
  · simpa [AllReadable, withG, entries, FuncDefn.named] using ⟨⟨_, rfl⟩, ⟨_, rfl⟩⟩

theorem unrequested_irrelevant_iff_header :
    (extract onlyF ⟨headerState.fns, .empty headerFiles, ∅⟩).toOption =
        (extract withG ⟨headerState.fns, .empty headerFiles, ∅⟩).toOption ↔
      (AllScannable headerFiles onlyF ↔ AllScannable headerFiles withG) :=
  unrequested_irrelevant_iff headerFiles headerGraph headerState onlyF withG
    (.empty headerFiles) ∅ rfl headerTables_agree headerTables_readable.1
    headerTables_readable.2

/-- A definition of g in the header, which nothing requests, aborts the extraction of f. -/
theorem unrequested_header_aborts :
    ∃ g r, parseFunctionCallGraph headerFiles headerGraph .empty = .ok g ∧
      AgreeOn g.fns.keys onlyF withG ∧
      extract onlyF ⟨g.fns, .empty headerFiles, ∅⟩ = .ok r ∧
      extract withG ⟨g.fns, .empty headerFiles, ∅⟩ = .error .indexError :=
  ⟨headerState, _, rfl, headerTables_agree, rfl, rfl⟩

theorem name_of_key {n : Str} (f : Str) (hn : ':' ∉ n) : (fnKey n f).takeWhile (· ≠ ':') = n := by
  have hc : ∀ c ∈ n, decide (c ≠ ':') = true := by
    intro c hc
    simp only [decide_eq_true_eq]
    exact fun he => hn (he ▸ hc)
  have hk : fnKey n f = n ++ ':' :: f := by simp [fnKey]
  rw [hk, List.takeWhile_append_of_pos hc]
  simp

theorem fnKey_inj {n f n' f' : Str} (hn : ':' ∉ n) (hn' : ':' ∉ n')
    (h : fnKey n f = fnKey n' f') : n = n' ∧ f = f' := by
  have hname : n = n' := by rw [← name_of_key f hn, h, name_of_key f' hn']
  rw [hname] at h
  exact ⟨hname, by simpa [fnKey] using h⟩

/-- At most one definition for a name and a file, and names without colons. -/
def UniqueDefns (ds : List Defn) : Prop :=
  (ds.map fun d => (d.funcName, d.srcFile)).Nodup ∧ ∀ d ∈ ds, ':' ∉ d.funcName

instance (ds : List Defn) : Decidable (UniqueDefns ds) := inferInstanceAs (Decidable (_ ∧ _))

theorem UniqueDefns.key_inj {ds : List Defn} (h : UniqueDefns ds) {d d' : Defn} (hd : d ∈ ds)
    (hd' : d' ∈ ds) (hk : keyOf d = keyOf d') : d = d' := by
  obtain ⟨hn, hf⟩ := fnKey_inj (h.2 d hd) (h.2 d' hd') hk
  exact List.inj_on_of_nodup_map h.1 hd hd' (Prod.ext hn hf)

theorem UniqueDefns.perm {ds ds' : List Defn} (h : UniqueDefns ds) (hp : ds.Perm ds') :
    UniqueDefns ds' :=
  ⟨(hp.map _).nodup_iff.mp h.1, fun d hd => h.2 d (hp.mem_iff.mpr hd)⟩

theorem UniqueDefns.lastFor_iff {ds : List Defn} (h : UniqueDefns ds) (k : Str) (d : Defn) :
    lastFor ds k = some d ↔ d ∈ ds ∧ keyOf d = k := by
  refine ⟨lastFor_mem, fun ⟨hd, hk⟩ => ?_⟩
  cases hl : lastFor ds k with
  | none => exact absurd hk (lastFor_eq_none.mp hl d hd)
  | some d' =>
    obtain ⟨hd', hk'⟩ := lastFor_mem hl
    rw [h.key_inj hd' hd (hk'.trans hk.symm)]

theorem UniqueDefns.lastFor_perm {ds ds' : List Defn} (h : UniqueDefns ds) (hp : ds.Perm ds')
    (k : Str) : lastFor ds k = lastFor ds' k := by
  refine Option.ext fun d => ?_
  rw [h.lastFor_iff, (h.perm hp).lastFor_iff, hp.mem_iff]

/-- What a run over a table must leave: the keys of the call graph in their order, each
bound to its definition if the table has one. -/
def Resolves (fns fns' : OrderedDict Str (Option Defn)) (ds : List Defn) : Prop :=
  fns'.keys = fns.keys ∧
  (∀ d ∈ ds, keyOf d ∈ fns.keys → fns'.get? (keyOf d) = some (some d)) ∧
  ∀ k ∈ fns.keys, (∀ d ∈ ds, keyOf d ≠ k) → fns'.get? k = some none

theorem UniqueDefns.resolves {fs : FS} {ds : List Defn} {st st' : BuildState fs}
    (hds : UniqueDefns ds) (h : ds.foldlM resolveDefn st = .ok st') (hu : Unresolved st.fns) :
    Resolves st.fns st'.fns ds := by
  refine ⟨pass_keys h, fun d hd hk => ?_, fun k hk hn => ?_⟩
  · rw [pass_fns h hk, (hds.lastFor_iff (keyOf d) d).mpr ⟨hd, rfl⟩]
    rfl
  · obtain ⟨v, hv⟩ := (st.fns.mem_keys_iff k).mp hk
    rw [pass_fns h hk, lastFor_eq_none.mpr hn, hv, hu k v hv]
    rfl

/-- Two tables that hold the same definitions in different orders either both raise, or
give the same functions, define files, region lists and output. -/
theorem table_order_irrelevant (fs : FS) (lines : List Str) (g : GraphState)
    (t₁ t₂ : FuncTable) (presDict : PresDict fs) (defineFiles : Finset Str)
    (hparse : parseFunctionCallGraph fs lines .empty = .ok g)
    (hperm : (entries t₁).Perm (entries t₂)) (hunique : UniqueDefns (entries t₁)) :
    ((∃ e, buildFnListToExtract t₁ ⟨g.fns, presDict, defineFiles⟩ = .error e) ∧
      ∃ e, buildFnListToExtract t₂ ⟨g.fns, presDict, defineFiles⟩ = .error e) ∨
    ∃ st₁ st₂ out, buildFnListToExtract t₁ ⟨g.fns, presDict, defineFiles⟩ = .ok st₁ ∧
      buildFnListToExtract t₂ ⟨g.fns, presDict, defineFiles⟩ = .ok st₂ ∧
      Resolves g.fns st₁.fns (entries t₁) ∧ st₁.fns = st₂.fns ∧
      st₁.defineFiles = st₂.defineFiles ∧
      (∀ f, st₁.presDict.dict.get? f = st₂.presDict.dict.get? f) ∧
      dumpFns fs st₁.presDict st₁.fns = .ok out ∧
      dumpFns fs st₂.presDict st₂.fns = .ok out := by
  have hu := parse_unresolved hparse
  rw [build_eq, build_eq]
  have hok : (∃ st', (entries t₁).foldlM resolveDefn ⟨g.fns, presDict, defineFiles⟩ = .ok st') ↔
      ∃ st', (entries t₂).foldlM resolveDefn ⟨g.fns, presDict, defineFiles⟩ = .ok st' := by
    rw [pass_ok_iff, pass_ok_iff]
    exact forall_congr' fun d => by rw [hperm.mem_iff]
  cases h₁ : (entries t₁).foldlM resolveDefn ⟨g.fns, presDict, defineFiles⟩ with
  | error e₁ =>
    cases h₂ : (entries t₂).foldlM resolveDefn ⟨g.fns, presDict, defineFiles⟩ with
    | error e₂ => exact Or.inl ⟨⟨e₁, rfl⟩, e₂, rfl⟩
    | ok st₂ =>
      obtain ⟨st₁, hs⟩ := hok.mpr ⟨st₂, h₂⟩
      rw [h₁] at hs
      cases hs
  | ok st₁ =>
    obtain ⟨st₂, h₂⟩ := hok.mp ⟨st₁, h₁⟩
    have hlast := fun k (_ : k ∈ g.fns.keys) => hunique.lastFor_perm hperm k
    obtain ⟨out, ho₁, ho₂⟩ := pass_dumpFns h₁ h₂ hu hlast
    refine Or.inr ⟨st₁, st₂, out, rfl, h₂, hunique.resolves h₁ hu, pass_fns_eq h₁ h₂ hlast,
      ?_, fun f => ?_, ho₁, ho₂⟩
    · ext f
      rw [pass_defineFiles h₁, pass_defineFiles h₂]
      simp only [hperm.mem_iff]
    · refine PresDict.get?_eq _ _ ?_
      rw [pass_presDict h₁, pass_presDict h₂]
      simp only [hperm.mem_iff]

def pairFiles : FS := filesOf
  [("a.c".toList, "int f;\nint g;\n".toList), ("b.c".toList, "int f;\n".toList)]

def pairGraph : List Str := readlines "\x7b\ng,1,a.c,2\nf,1,b.c,1\n\x7d\n".toList

def pairState : GraphState :=
  { GraphState.empty with
    fns := ⟨[("g:a.c".toList, none), ("f:b.c".toList, none)], by decide⟩ }

def pairTable : FuncTable :=
  ⟨[("f".toList, [⟨"a.c".toList, 1, 1⟩, ⟨"b.c".toList, 1, 1⟩]),
    ("g".toList, [⟨"a.c".toList, 2, 2⟩])], by decide⟩

def swappedTable : FuncTable :=
  ⟨[("g".toList, [⟨"a.c".toList, 2, 2⟩]),
    ("f".toList, [⟨"b.c".toList, 1, 1⟩, ⟨"a.c".toList, 1, 1⟩])], by decide⟩

theorem table_order_irrelevant_pair :
    ((∃ e, buildFnListToExtract pairTable ⟨pairState.fns, .empty pairFiles, ∅⟩ = .error e) ∧
      ∃ e, buildFnListToExtract swappedTable ⟨pairState.fns, .empty pairFiles, ∅⟩ = .error e) ∨
    ∃ st₁ st₂ out,
      buildFnListToExtract pairTable ⟨pairState.fns, .empty pairFiles, ∅⟩ = .ok st₁ ∧
      buildFnListToExtract swappedTable ⟨pairState.fns, .empty pairFiles, ∅⟩ = .ok st₂ ∧
      Resolves pairState.fns st₁.fns (entries pairTable) ∧ st₁.fns = st₂.fns ∧
      st₁.defineFiles = st₂.defineFiles ∧
      (∀ f, st₁.presDict.dict.get? f = st₂.presDict.dict.get? f) ∧
      dumpFns pairFiles st₁.presDict st₁.fns = .ok out ∧
      dumpFns pairFiles st₂.presDict st₂.fns = .ok out :=
  table_order_irrelevant pairFiles pairGraph pairState pairTable swappedTable
    (.empty pairFiles) ∅ rfl (by decide) (by decide)

end OpenedExtraction.Extraction
