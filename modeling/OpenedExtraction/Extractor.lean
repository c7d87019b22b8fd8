import OpenedExtraction.GraphLines
import OpenedExtraction.Extraction
import OpenedExtraction.Maps
import OpenedExtraction.DefineRuns

/-! A whole run of the extractor, from the call graph and the two tables to the written files. The
run of the program is compared with a plain description of its result. -/
namespace OpenedExtraction.Extractor
open OpenedExtraction.PyText OpenedExtraction.ExtractAndDump OpenedExtraction.PreprocessorMap
open OpenedExtraction.CallGraph OpenedExtraction.FunctionTable OpenedExtraction.Maps
open OpenedExtraction.AddDefines OpenedExtraction.Headers OpenedExtraction.HeaderHistory
open OpenedExtraction.GraphLines OpenedExtraction.OwnLines OpenedExtraction.DefineRuns

/-- The order in which Python iterates over a set: any order at all. -/
structure SetOrder where
  list : Finset Str → List Str
  nodup : ∀ s, (list s).Nodup
  mem : ∀ s x, x ∈ list s ↔ x ∈ s

/-- What a run finds: the files, the command readlink -f, str.upper and an order of its sets. -/
structure Host where
  fs : FS
  readlink : Str → Option Str
  upper : Str → Str
  order : SetOrder

/-- The files extractedFileName, extractedFuncList.out and duplicates.out, and the two reports that
are printed. -/
structure Outputs where
  extracted : Str
  funcList : Str
  duplicates : Str
  dupDefines : List Str
  mapReport : List (Bool × Str)
  deriving DecidableEq, Repr

def spdxText : Str := "/* SPDX-License-Identifier: GPL-2.0 */\n".toList

def recordText : Str := "#define RECORD_FLOW_INFO\n".toList

def licenseText (isCilium : Bool) : Str :=
  if isCilium then "BPF_LICENSE(\"Dual BSD/GPL\");".toList
  else "char _license[] SEC(\"license\") = \"GPL\";".toList

def mapText (opMaps : OrderedDict Str (List MapEntry)) : Str :=
  ((writeMaps opMaps).map MapWrite.text).flatten

/-- The loop that reports "DUPLICATE MAP" or "MAP" for each name. -/
def reportMaps (opMaps : OrderedDict Str (List MapEntry)) : List (Bool × Str) :=
  opMaps.items.map fun kv => (decide (kv.2.length > 1), kv.1)

/-- The main program on the lines of the call graph. -/
def run (host : Host) (isCilium : Bool) (structs : StructTable) (funcs : FuncTable)
    (lines : List Str) : Except PyErr Outputs := do
  let g ← parseFunctionCallGraph host.fs lines .empty
  let ms ← extractMapsFromStructDefs structs g.maps.keys ⟨.empty, .empty host.fs, ∅⟩
  let st ← buildFnListToExtract funcs ⟨g.fns, ms.presDict, ms.defineFiles⟩
  let d ← (host.order.list st.defineFiles).foldlM (addDefines host.fs host.readlink)
    (Defines.empty.write (spdxText ++ recordText))
  let out ← dumpFns host.fs st.presDict st.fns
  .ok {
    extracted := d.text ++ writeHeaders host.upper g.headers ++ mapText ms.opMaps ++
      dumpText out ++ licenseText isCilium
    funcList := dumpList out
    duplicates := g.duplicates.flatten
    dupDefines := d.dups.keys
    mapReport := reportMaps ms.opMaps }

/-- The main program: the file of the call graph is opened before anything is parsed. -/
def main (host : Host) (isCilium : Bool) (structs : StructTable) (funcs : FuncTable)
    (codequeryOutputFile : Str) : Except PyErr Outputs := do
  let lines ← openLines host.fs codequeryOutputFile
  run host isCilium structs funcs lines

section Description
variable (host : Host) (isCilium : Bool) (structs : StructTable) (funcs : FuncTable)
  (lines : List Str)

def requestedKeys : List Str := ((requests lines).flatMap Request.keys).eraseDups

def mapKeys : List Str := (mapNames lines).eraseDups

/-- For each requested key the last definition that has it, unless it is in a header. -/
def copiedDefns : List Defn :=
  ((requestedKeys lines).filterMap (lastFor (entries funcs))).filter
    fun d => !endswith d.srcFile hExt

def defineFiles : Finset Str :=
  (((entries funcs).filter fun d => keyOf d ∈ requestedKeys lines ∧
    endswith d.srcFile cExt = true).map Defn.srcFile).toFinset

/-- The headers with the source that mentions each of them last. -/
def headers (fs : FS) : OrderedDict Str Str :=
  (history fs ((requests lines).flatMap Request.sources)).foldl (fun d fh => d.set fh.2 fh.1)
    .empty

def collectedMaps : OrderedDict Str (List MapEntry) :=
  (structs.items.flatMap (structAppends (mapKeys lines))).foldl (fun o p => o.appendAt p.1 p.2)
    .empty

def regionsOf (fs : FS) (f : Str) : List Region :=
  match createPreprocessorMapOf fs f with
  | .ok p => p
  | .error _ => []

def copiedBlock (fs : FS) (d : Defn) : Str :=
  match fs d.srcFile with
  | .text t => blockText (pickedGuard (regionsOf fs d.srcFile) d.startLine d.endLine) d.srcFile
      d.startLine d.endLine (readlines (universalNewlines t))
  | _ => []

def defineSection (fs : FS) (readlink : Str → Option Str) (cFile : Str) : Str :=
  Pieces.textOf (linesPieces ((readlink cFile).getD []) ⟨.empty, false, [], 0⟩
    (sourceOf fs readlink cFile))

/-- What the run leaves, section by section. -/
def described : Outputs where
  extracted := spdxText ++ recordText ++
    (host.order.list (defineFiles funcs lines)).flatMap (defineSection host.fs host.readlink) ++
    writeHeaders host.upper (headers lines host.fs) ++ mapText (collectedMaps structs lines) ++
    (copiedDefns funcs lines).flatMap (copiedBlock host.fs) ++ licenseText isCilium
  funcList := (copiedDefns funcs lines).flatMap entryLine
  duplicates := ((requests lines).flatMap Request.notes).flatten
  dupDefines := ((fileNames host.fs host.readlink
    (host.order.list (defineFiles funcs lines))).foldl Defines.record .empty).dups.keys
  mapReport := reportMaps (collectedMaps structs lines)

/-- The inputs on which a run ends normally. -/
structure Runs : Prop where
  graph : Accepted host.fs lines
  structFiles : ∀ kv ∈ structs.items, ∀ d ∈ kv.2, ScanOk host.fs d.fileName
  mapFiles : NoCDefinition (mapKeys lines) structs.items
  funcFiles : ∀ d ∈ entries funcs, ScanOk host.fs d.srcFile
  defineNames : ∀ f ∈ defineFiles funcs lines, Processed host.fs host.readlink f

end Description

section Phases
variable {fs : FS} {lines : List Str} {funcs : FuncTable}

theorem afterLines_headers (fs : FS) (lines : List Str) :
    (afterLines fs lines .empty).headers = headers lines fs := by
  rw [afterLines, foldl_serve_eq, foldl_addMap_eq]
  exact foldl_record_headers _ _

theorem written_eq {ds : List Defn} {st st' : BuildState fs} (hk : st.fns.keys = requestedKeys lines)
    (hu : Unresolved st.fns) (h : ds.foldlM resolveDefn st = .ok st') :
    written st'.fns = ((requestedKeys lines).filterMap (lastFor ds)).filter
      fun d => !endswith d.srcFile hExt := by
  have hget : ∀ k ∈ requestedKeys lines, st'.fns.get? k = some (lastFor ds k) := by
    intro k hm
    rw [← hk] at hm
    rw [pass_fns h hm]
    cases hl : lastFor ds k with
    | some d => rfl
    | none =>
      obtain ⟨v, hv⟩ := (st.fns.mem_keys_iff k).mp hm
      rw [Option.map_none, Option.none_or, hv, hu k v hv]
  have hitems : st'.fns.items = (requestedKeys lines).map fun k => (k, lastFor ds k) := by
    rw [OrderedDict.items_eq, pass_keys h, hk, ← List.filterMap_eq_map]
    refine List.filterMap_congr fun k hm => ?_
    rw [hget k hm]
    rfl
  rw [written, hitems, List.map_map, List.filterMap_map, List.filter_filterMap]
  rfl

theorem defineFiles_eq {st st' : BuildState fs} (hk : st.fns.keys = requestedKeys lines)
    (hd : st.defineFiles = ∅) (h : (entries funcs).foldlM resolveDefn st = .ok st') :
    st'.defineFiles = defineFiles funcs lines := by
  ext f
  rw [pass_defineFiles h, hk, hd]
  simp [defineFiles, and_assoc]

theorem definitionBlock_copied (presDict : PresDict fs) {d : Defn}
    (h : d.srcFile ∈ presDict.dict.keys) : definitionBlock presDict d = copiedBlock fs d := by
  obtain ⟨p, hp⟩ := (presDict.dict.mem_keys_iff d.srcFile).mp h
  have hl : presDict.lookup d.srcFile = regionsOf fs d.srcFile := by
    rw [PresDict.lookup, OrderedDict.getD, hp, regionsOf, presDict.scanned d.srcFile p hp]
    rfl
  cases hf : fs d.srcFile <;> simp only [definitionBlock, copiedBlock, hl, hf]

theorem dumpFns_copied {st st' : BuildState fs} (hk : st.fns.keys = requestedKeys lines)
    (hu : Unresolved st.fns) (h : (entries funcs).foldlM resolveDefn st = .ok st') :
    dumpFns fs st'.presDict st'.fns = .ok ((copiedDefns funcs lines).map
      fun d => ⟨d, entryLine d, copiedBlock fs d⟩) := by
  have hs := written_scanned h hu
  rw [dumpFns_scanned _ _ hs, written_eq hk hu h, Except.ok.injEq, copiedDefns]
  refine List.map_congr_left fun d hd => ?_
  rw [← written_eq hk hu h] at hd
  rw [definitionBlock_copied st'.presDict (hs d hd)]

theorem write_record (d : Defines) (t k : Str) : (d.write t).record k = (d.record k).write t := by
  by_cases hk : k ∈ d.names.keys
  · rw [Defines.record, Defines.record, if_pos hk]
    exact if_pos hk
  · rw [Defines.record, Defines.record, if_neg hk]
    exact if_neg hk

theorem foldl_record_write (ks : List Str) (d : Defines) (t : Str) :
    ks.foldl Defines.record (d.write t) = (ks.foldl Defines.record d).write t := by
  induction ks generalizing d with
  | nil => rfl
  | cons k ks ih => rw [List.foldl_cons, List.foldl_cons, write_record, ih]

theorem lineNames_cons (line : Str) (lines : List Str) :
    lineNames (line :: lines) = lineNames [line] ++ lineNames lines := by
  rw [lineNames, lineNames, lineNames, ← List.filterMap_append, List.singleton_append]

theorem addDefineLine_acc {fullLine line : Str} {s s' : LineState} (d : Defines)
    (h : addDefineLine fullLine s line = .ok s') :
    addDefineLine fullLine { s with acc := d } line = .ok { s' with
      acc := ((lineNames [line]).foldl Defines.record d).write
        (Pieces.textOf (linePieces fullLine s line)) } := by
  obtain ⟨hcopy, rfl⟩ | ⟨_, hd, key, hk, rfl⟩ | ⟨hcopy, hd, hb, hm, rfl⟩ := addDefineLine_cases h
  · have hnone : contains defineText line = false := by
      rw [copied, Bool.or_eq_false_iff] at hcopy
      exact hcopy.1
    rw [@addDefineLine_skip fullLine line { s with acc := d } hcopy, linePieces_other hcopy]
    simp [lineNames, hnone, Defines.write]
  · rw [@addDefineLine_define fullLine { s with acc := d } line key hd hk, linePieces_define hd hk]
    have hnames : lineNames [line] = [key] := by simp [lineNames, hd, hk]
    rw [hnames]
    cases hc : continues line with
    | true => simp [Pieces.textOf]
    | false =>
      simp [Pieces.textOf, addBlock, Block.text, Block.payload, Block.copied, Block.single]
  · rw [@addDefineLine_continued fullLine { s with acc := d } line hd hb hm,
      linePieces_continued hd hb hm]
    have hnames : lineNames [line] = [] := by simp [lineNames, hd]
    rw [hnames]
    cases hc : continues line <;> simp [Pieces.textOf]

theorem foldlM_addDefineLine_acc {fullLine : Str} {lines : List Str} {s s' : LineState}
    (d : Defines) (h : lines.foldlM (addDefineLine fullLine) s = .ok s') :
    lines.foldlM (addDefineLine fullLine) { s with acc := d } = .ok { s' with
      acc := ((lineNames lines).foldl Defines.record d).write
        (Pieces.textOf (linesPieces fullLine s lines)) } := by
  induction lines generalizing s d with
  | nil =>
    rw [foldlM_nil_inv h]
    simp [lineNames, linesPieces, Defines.write, pure, Except.pure]
  | cons line lines ih =>
    obtain ⟨s₁, h₁, h⟩ := foldlM_cons_inv h
    rw [foldlM_cons_ok (addDefineLine_acc d h₁) (ih _ h), linesPieces_cons h₁,
      lineNames_cons line lines, List.foldl_append, foldl_record_write, write_write,
      Pieces.textOf_append]

theorem linesPieces_acc {fullLine : Str} {lines : List Str} {s s' : LineState} (d : Defines)
    (h : lines.foldlM (addDefineLine fullLine) s = .ok s') :
    linesPieces fullLine { s with acc := d } lines = linesPieces fullLine s lines := by
  induction lines generalizing s d with
  | nil => rfl
  | cons line lines ih =>
    obtain ⟨s₁, h₁, h⟩ := foldlM_cons_inv h
    rw [linesPieces_cons h₁, linesPieces_cons (addDefineLine_acc d h₁), ih _ h]
    rfl

/-- A call of addDefines records the names of the file and appends its blocks. -/
theorem addDefines_iff (fs : FS) (readlink : Str → Option Str) (d : Defines) (cFile : Str)
    (d' : Defines) :
    addDefines fs readlink d cFile = .ok d' ↔ ∃ f, some cFile = some f ∧
      Processed fs readlink f ∧
      d' = ((lineNames (sourceOf fs readlink f)).foldl Defines.record d).write
        (defineSection fs readlink f) := by
  have hform : ∀ d', addDefines fs readlink d cFile = .ok d' →
      d' = ((lineNames (sourceOf fs readlink cFile)).foldl Defines.record d).write
        (defineSection fs readlink cFile) := by
    intro d' h
    obtain ⟨s, hs, rfl, _⟩ := addDefines_ok h
    have hacc := foldlM_addDefineLine_acc d hs
    rw [hs, Except.ok.injEq] at hacc
    rw [congrArg LineState.acc hacc, defineSection, ← linesPieces_acc .empty hs]
  constructor
  · intro h
    exact ⟨cFile, rfl, (addDefines_returns_iff d cFile).mp ⟨d', h⟩, hform d' h⟩
  · intro h
    obtain ⟨f, hf, hp, he⟩ := h
    cases hf
    obtain ⟨d₁, h₁⟩ := (addDefines_returns_iff d cFile).mpr hp
    rw [h₁, hform d₁ h₁, he]

theorem addDefines_run_iff (fs : FS) (readlink : Str → Option Str) (cFiles : List Str)
    (d d' : Defines) :
    cFiles.foldlM (addDefines fs readlink) d = .ok d' ↔
      (∀ f ∈ cFiles, Processed fs readlink f) ∧
      d' = ((fileNames fs readlink cFiles).foldl Defines.record d).write
        (cFiles.flatMap (defineSection fs readlink)) := by
  have hfold : ∀ (cFiles : List Str) (d : Defines),
      cFiles.foldl (fun d f => ((lineNames (sourceOf fs readlink f)).foldl Defines.record d).write
        (defineSection fs readlink f)) d =
      ((fileNames fs readlink cFiles).foldl Defines.record d).write
        (cFiles.flatMap (defineSection fs readlink)) := by
    intro cFiles
    induction cFiles with
    | nil => exact fun d => by simp [fileNames, Defines.write]
    | cons f cFiles ih =>
      intro d
      rw [List.foldl_cons, ih, foldl_record_write, write_write, fileNames, fileNames,
        List.flatMap_cons, List.flatMap_cons, List.foldl_append]
  rw [foldlM_decode_iff (addDefines_iff fs readlink), List.filterMap_some, hfold]
  simp

end Phases

section Whole
variable {host : Host} {isCilium : Bool} {structs : StructTable} {funcs : FuncTable}
  {lines : List Str}

theorem extractMaps_collected {fs : FS} {ms : MapsState fs}
    (h : extractMapsFromStructDefs structs (mapKeys lines) ⟨.empty, .empty fs, ∅⟩ = .ok ms) :
    ms.opMaps = collectedMaps structs lines ∧ ms.defineFiles = ∅ :=
  ⟨outer_appends h, (outer_spec h).1⟩

theorem foldl_record_text (ks : List Str) (d : Defines) :
    (ks.foldl Defines.record d).text = d.text := by
  induction ks generalizing d with
  | nil => rfl
  | cons k ks ih => rw [List.foldl_cons, ih, record_text]

theorem defines_described {ns : List Str} {intro sections : Str} :
    ((ns.foldl Defines.record (Defines.empty.write intro)).write sections).text = intro ++ sections ∧
      ((ns.foldl Defines.record (Defines.empty.write intro)).write sections).dups =
        (ns.foldl Defines.record .empty).dups := by
  rw [foldl_record_write]
  refine ⟨?_, rfl⟩
  simp [Defines.write, foldl_record_text, Defines.empty]

theorem flatten_copied (fs : FS) (ds : List Defn) :
    dumpText (ds.map fun d => ⟨d, entryLine d, copiedBlock fs d⟩) = ds.flatMap (copiedBlock fs) ∧
      dumpList (ds.map fun d => ⟨d, entryLine d, copiedBlock fs d⟩) = ds.flatMap entryLine := by
  rw [dumpText, dumpList, List.map_map, List.map_map, List.flatMap, List.flatMap]
  exact ⟨rfl, rfl⟩

theorem run_described {o : Outputs} (h : run host isCilium structs funcs lines = .ok o) :
    Runs host structs funcs lines ∧ o = described host isCilium structs funcs lines := by
  have hrec := afterLines_recovered host.fs lines
  simp only [run, bind_eq_ok, parse_ok_iff, Except.ok.injEq] at h
  obtain ⟨g, ⟨hacc, rfl⟩, ms, hms, st, hst, d, hd, out, hout, rfl⟩ := h
  rw [show (afterLines host.fs lines .empty).maps.keys = mapKeys lines from hrec.maps] at hms
  rw [build_eq] at hst
  obtain ⟨hop, hfiles⟩ := extractMaps_collected hms
  rw [defineFiles_eq hrec.functions hfiles hst, addDefines_run_iff] at hd
  rw [dumpFns_copied hrec.functions hrec.unresolved hst, Except.ok.injEq] at hout
  obtain ⟨hstructs, hmaps⟩ := (outer_returns_iff structs.items _).mp ⟨ms, hms⟩
  refine ⟨⟨hacc, hstructs, hmaps, (pass_ok_iff _ _).mp ⟨st, hst⟩,
    fun f hf => hd.1 f ((host.order.mem _ f).mpr hf)⟩, ?_⟩
  obtain ⟨htext, hdups⟩ := @defines_described
    (fileNames host.fs host.readlink (host.order.list (defineFiles funcs lines)))
    (spdxText ++ recordText)
    ((host.order.list (defineFiles funcs lines)).flatMap (defineSection host.fs host.readlink))
  obtain ⟨hblocks, hlist⟩ := flatten_copied host.fs (copiedDefns funcs lines)
  rw [described, ← hout, hblocks, hlist, hd.2, htext, hdups, hop, hrec.duplicates,
    afterLines_headers]

theorem run_iff (o : Outputs) :
    run host isCilium structs funcs lines = .ok o ↔
      Runs host structs funcs lines ∧ o = described host isCilium structs funcs lines := by
  refine ⟨run_described, fun h => ?_⟩
  obtain ⟨hr, rfl⟩ := h
  have hrec := afterLines_recovered host.fs lines
  obtain ⟨ms, hms⟩ := (@outer_returns_iff host.fs (mapKeys lines) structs.items
    ⟨.empty, .empty host.fs, ∅⟩).mpr ⟨hr.structFiles, hr.mapFiles⟩
  obtain ⟨st, hst⟩ := (pass_ok_iff (entries funcs)
    ⟨(afterLines host.fs lines .empty).fns, ms.presDict, ms.defineFiles⟩).mpr hr.funcFiles
  have hfiles := (extractMaps_collected hms).2
  have hdefs : ∃ d, (host.order.list st.defineFiles).foldlM (addDefines host.fs host.readlink)
      (Defines.empty.write (spdxText ++ recordText)) = .ok d := by
    refine ⟨_, (addDefines_run_iff _ _ _ _ _).mpr ⟨fun f hf => hr.defineNames f ?_, rfl⟩⟩
    rwa [defineFiles_eq hrec.functions hfiles hst, host.order.mem] at hf
  obtain ⟨d, hd⟩ := hdefs
  have hrun : ∃ o, run host isCilium structs funcs lines = .ok o := by
    simp only [run, bind_eq_ok, parse_ok_iff]
    refine ⟨_, _, ⟨hr.graph, rfl⟩, ms, ?_, st, ?_, d, hd, _,
      dumpFns_copied hrec.functions hrec.unresolved hst, rfl⟩
    · rw [hrec.maps]
      exact hms
    · rw [build_eq]
      exact hst
  obtain ⟨o, ho⟩ := hrun
  rw [ho, (run_described ho).2]

end Whole

/-- The main program ends normally exactly when the call graph can be opened and its lines and the
two tables meet the conditions, and then it leaves the described files and reports. -/
theorem main_as_described (host : Host) (isCilium : Bool) (structs : StructTable)
    (funcs : FuncTable) (codequeryOutputFile : Str) (o : Outputs) :
    main host isCilium structs funcs codequeryOutputFile = .ok o ↔
      ∃ t, host.fs codequeryOutputFile = .text t ∧
        Runs host structs funcs (readlines (universalNewlines t)) ∧
        o = described host isCilium structs funcs (readlines (universalNewlines t)) := by
  rw [main, bind_eq_ok]
  simp only [run_iff]
  constructor
  · intro h
    obtain ⟨lines, hlines, h⟩ := h
    rw [openLines] at hlines
    cases hf : host.fs codequeryOutputFile with
    | text t =>
      simp only [hf, Except.ok.injEq] at hlines
      rw [← hlines] at h
      exact ⟨t, rfl, h⟩
    | missing => simp [hf] at hlines
    | unreadable => simp [hf] at hlines
  · intro h
    obtain ⟨t, ht, h⟩ := h
    exact ⟨_, by rw [openLines, ht], h⟩

def Host.withOrder (host : Host) (order : SetOrder) : Host := { host with order := order }

theorem SetOrder.perm (o o' : SetOrder) (s : Finset Str) : (o.list s).Perm (o'.list s) :=
  (List.perm_ext_iff_of_nodup (o.nodup s) (o'.nodup s)).mpr fun x => by rw [o.mem, o'.mem]

theorem mem_reported (ns : List Str) (n : Str) :
    n ∈ (ns.foldl Defines.record .empty).dups.keys ↔ 2 ≤ ns.count n := by
  have htally : ∀ (ns ms : List Str) (d : Defines), Tally ms d →
      Tally (ms ++ ns) (ns.foldl Defines.record d) := by
    intro ns
    induction ns with
    | nil => exact fun ms d h => by simpa using h
    | cons k ns ih =>
      intro ms d h
      have hnext := ih (ms ++ [k]) (d.record k) (h.record k)
      rwa [List.append_assoc, List.singleton_append] at hnext
  have h := htally ns [] .empty tally_empty
  rw [List.nil_append] at h
  exact h.dups n

/-- Whatever order Python gives to the set of files, a run ends normally or not, writes the same
function list and duplicates and reports the same maps and the same repeated macros. In the
extracted file only the #define sections of the files change their order. -/
theorem set_order_irrelevant (host : Host) (order : SetOrder) (isCilium : Bool)
    (structs : StructTable) (funcs : FuncTable) (lines : List Str) (o : Outputs)
    (h : run host isCilium structs funcs lines = .ok o) :
    ∃ o' pre post, run (host.withOrder order) isCilium structs funcs lines = .ok o' ∧
      o'.funcList = o.funcList ∧ o'.duplicates = o.duplicates ∧ o'.mapReport = o.mapReport ∧
      (∀ n, n ∈ o'.dupDefines ↔ n ∈ o.dupDefines) ∧
      o.extracted = pre ++ (host.order.list (defineFiles funcs lines)).flatMap
        (defineSection host.fs host.readlink) ++ post ∧
      o'.extracted = pre ++ (order.list (defineFiles funcs lines)).flatMap
        (defineSection host.fs host.readlink) ++ post := by
  obtain ⟨hr, rfl⟩ := run_described h
  have hr' : Runs (host.withOrder order) structs funcs lines :=
    ⟨hr.graph, hr.structFiles, hr.mapFiles, hr.funcFiles, hr.defineNames⟩
  refine ⟨_, spdxText ++ recordText, writeHeaders host.upper (headers lines host.fs) ++
    mapText (collectedMaps structs lines) ++ (copiedDefns funcs lines).flatMap
      (copiedBlock host.fs) ++ licenseText isCilium, run_iff _ |>.mpr ⟨hr', rfl⟩, rfl, rfl, rfl,
    fun n => ?_, ?_, ?_⟩
  · have hp := (order.perm host.order (defineFiles funcs lines)).flatMap_right
      fun f => lineNames (sourceOf host.fs host.readlink f)
    change n ∈ ((fileNames host.fs host.readlink (order.list (defineFiles funcs lines))).foldl
      Defines.record .empty).dups.keys ↔ _
    rw [described, mem_reported, mem_reported, fileNames, fileNames, hp.count_eq n]
  · simp only [described, List.append_assoc]
  · simp only [described, List.append_assoc, Host.withOrder]

end OpenedExtraction.Extractor
