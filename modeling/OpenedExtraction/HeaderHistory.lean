import OpenedExtraction.CallGraphDocument
import Mathlib.Data.Finset.Lattice.Lemmas

/-! What any sequence of function lines leaves in headers and graph. -/
namespace OpenedExtraction.HeaderHistory
open OpenedExtraction.PyText OpenedExtraction.CallGraph OpenedExtraction.CallGraphDocument

def takenOperand (line : Str) : Option Str :=
  if contains includeText line then (includeOperand line).toOption else none

def operands (fs : FS) (cFile : Str) : List Str :=
  match fs cFile with
  | .text t => (readlines (universalNewlines t)).filterMap takenOperand
  | _ => []

/-- The .c sources of the lines with at most one definition, as often as they are mentioned. -/
def sources {fs : FS} (functions : List (FuncLine fs)) : List Str :=
  ((single functions).map FuncLine.path).filter fun src => endswith src cExt

def history (fs : FS) (cFiles : List Str) : List (Str × Str) :=
  cFiles.flatMap fun f => (operands fs f).map fun h => (f, h)

def record (g : GraphState) (fh : Str × Str) : GraphState :=
  { g with
    graph := g.graph.set fh.2 (insert fh.1 (g.graph.getD fh.2 ∅))
    headers := g.headers.set fh.2 fh.1 }

theorem addInclude_record (cFile : Str) (g : GraphState) (line : Str) :
    addInclude cFile g line =
      .ok (((takenOperand line).toList.map fun h => (cFile, h)).foldl record g) := by
  by_cases hc : contains includeText line
  · rw [addInclude, if_pos hc, takenOperand, if_pos hc, includeOperand_eq hc]
    rfl
  · rw [addInclude, if_neg hc, takenOperand, if_neg hc]
    rfl

theorem foldlM_record (cFile : Str) (lines : List Str) (g : GraphState) :
    lines.foldlM (addInclude cFile) g =
      .ok (((lines.filterMap takenOperand).map fun h => (cFile, h)).foldl record g) := by
  induction lines generalizing g with
  | nil => rfl
  | cons line lines ih =>
    rw [foldlM_cons_ok (addInclude_record cFile g line) (ih _), ← List.foldl_append,
      ← List.map_append]
    cases ht : takenOperand line <;> simp [ht]

theorem addSource_record {fs : FS} {src : Str} (g : GraphState)
    (hr : endswith src cExt = true → ∃ t, fs src = .text t) :
    addSource fs g src =
      .ok ((history fs ([src].filter fun src => endswith src cExt)).foldl record g) := by
  by_cases hs : endswith src cExt
  · obtain ⟨t, ht⟩ := hr hs
    rw [addSource, if_pos hs, addDependsOn, openLines, ht]
    simp [history, operands, hs, ht, bind, Except.bind, foldlM_record]
  · rw [addSource, if_neg hs]
    simp [history, hs]

theorem foldlM_history {fs : FS} {paths : List Str}
    (hr : ∀ p ∈ paths, endswith p cExt = true → ∃ t, fs p = .text t) (g : GraphState) :
    paths.foldlM (addSource fs) g =
      .ok ((history fs (paths.filter fun src => endswith src cExt)).foldl record g) := by
  induction paths generalizing g with
  | nil => rfl
  | cons p paths ih =>
    rw [foldlM_cons_ok (addSource_record g (hr p (by simp)))
      (ih (fun q hq => hr q (List.mem_cons_of_mem p hq)) _), ← List.foldl_append, history, history,
      ← List.flatMap_append, ← List.filter_append]
    rfl

/-- Reading function lines records the history of their sources. -/
theorem processFuncLines_history {fs : FS} (functions : List (FuncLine fs)) :
    ∃ g, (functions.map FuncLine.line).foldlM (processFuncLine fs) .empty = .ok g ∧
      g.headers = ((history fs (sources functions)).foldl record .empty).headers ∧
      g.graph = ((history fs (sources functions)).foldl record .empty).graph := by
  obtain ⟨h, hh, hrun⟩ := foldlM_processFuncLine functions GraphState.empty
  have hr : ∀ p ∈ (single functions).map FuncLine.path, endswith p cExt = true →
      ∃ t, fs p = .text t := by
    intro p hp
    obtain ⟨f, hf, rfl⟩ := List.mem_map.mp hp
    exact f.readable (by simpa using (List.mem_filter.mp hf).2)
  rw [foldlM_history hr, Except.ok.injEq] at hh
  exact ⟨_, hrun .empty [] .empty, by rw [sources, hh]; rfl, by rw [sources, hh]; rfl⟩

theorem foldl_record_headers (hist : List (Str × Str)) (g : GraphState) :
    (hist.foldl record g).headers = hist.foldl (fun d fh => d.set fh.2 fh.1) g.headers := by
  induction hist generalizing g with
  | nil => rfl
  | cons fh hist ih => exact ih (record g fh)

theorem foldl_record_graph (hist : List (Str × Str)) (g : GraphState) :
    (hist.foldl record g).graph =
      hist.foldl (fun d fh => d.set fh.2 (insert fh.1 (d.getD fh.2 ∅))) g.graph := by
  induction hist generalizing g with
  | nil => rfl
  | cons fh hist ih => exact ih (record g fh)

theorem graph_files (hist : List (Str × Str)) (h : Str) :
    (hist.foldl record .empty).graph.getD h ∅ =
      ((hist.filter fun fh => fh.2 = h).map Prod.fst).toFinset := by
  induction hist using List.reverseRecOn with
  | nil => rfl
  | append_singleton hist fh ih =>
    rw [List.foldl_append, List.foldl_cons, List.foldl_nil, List.filter_append, List.map_append,
      List.toFinset_append, ← ih, record, OrderedDict.getD, OrderedDict.get?_set]
    by_cases hk : h = fh.2
    · rw [if_pos hk, Option.getD_some, ← hk, List.filter_cons_of_pos (by simpa using hk.symm)]
      simp
    · rw [if_neg hk, List.filter_cons_of_neg (by simpa using Ne.symm hk)]
      simp [OrderedDict.getD]

theorem eraseDups_flatMap {α β : Type*} [BEq α] [LawfulBEq α] [BEq β] [LawfulBEq β]
    (f : α → List β) (xs : List α) :
    (xs.flatMap f).eraseDups = (xs.eraseDups.flatMap f).eraseDups := by
  have hmem : ∀ (xs : List α) (y : β), y ∈ xs.eraseDups.flatMap f ↔ y ∈ xs.flatMap f := by
    intro xs y
    simp [List.mem_flatMap]
  have hremove : ∀ (xs : List α) (ys : List β),
      ys.removeAll (xs.eraseDups.flatMap f) = ys.removeAll (xs.flatMap f) := by
    intro xs ys
    refine List.filter_congr fun y _ => ?_
    simp [hmem xs y]
  induction xs using List.reverseRecOn with
  | nil => rfl
  | append_singleton xs x ih =>
    rw [List.flatMap_append, List.eraseDups_append, @List.eraseDups_append _ _ _ xs, ih]
    by_cases hx : x ∈ xs
    · have hnone : ([x].flatMap f).removeAll (xs.flatMap f) = [] := by
        rw [List.removeAll, List.filter_eq_nil_iff]
        intro y hy
        simpa using ⟨x, hx, by simpa using hy⟩
      rw [hnone]
      simp [List.removeAll, hx]
    · have hnew : ([x].removeAll xs).eraseDups = [x] := by
        simp [List.removeAll, hx, List.eraseDups_cons]
      rw [hnew, List.flatMap_append, List.eraseDups_append, hremove]

theorem history_operands (fs : FS) (cFiles : List Str) :
    (history fs cFiles).map Prod.snd = cFiles.flatMap (operands fs) := by
  simp [history, List.map_flatMap, Function.comp_def]

theorem mem_history_filter (fs : FS) (cFiles : List Str) (h f : Str) :
    f ∈ ((history fs cFiles).filter fun fh => fh.2 = h).map Prod.fst ↔
      f ∈ cFiles.filter fun f => h ∈ operands fs f := by
  simp [history]

theorem history_last (fs : FS) (cFiles : List Str) (h : Str) :
    (((history fs cFiles).filter fun fh => fh.2 = h).getLast?).map Prod.fst =
      (cFiles.filter fun f => h ∈ operands fs f).getLast? := by
  induction cFiles using List.reverseRecOn with
  | nil => rfl
  | append_singleton cFiles f ih =>
    have hfile : (history fs [f]).filter (fun fh => fh.2 = h) =
        ((operands fs f).filter (fun x => x = h)).map fun x => (f, x) := by
      simp [history, List.filter_map, Function.comp_def]
    rw [history, List.flatMap_append, ← history, ← history, List.filter_append,
      List.filter_append, hfile, List.getLast?_append, List.getLast?_append]
    by_cases hm : h ∈ operands fs f
    · obtain ⟨x, xs, hx⟩ := List.exists_cons_of_ne_nil
        (List.ne_nil_of_mem (List.mem_filter.mpr ⟨hm, by simp⟩ :
          h ∈ (operands fs f).filter fun x => x = h))
      rw [List.getLast?_map, hx, List.getLast?_cons]
      simp [hm]
    · have hnil : (operands fs f).filter (fun x => x = h) = [] := by
        rw [List.filter_eq_nil_iff]
        intro x hx he
        exact hm (of_decide_eq_true he ▸ hx)
      rw [hnil]
      simpa [hm] using ih

/-- The headers are the operands of the distinct files in the order of their first mention; graph
has the same keys, with the set of the files that take a header; headers has the file among them
that was mentioned last. -/
structure Bookkeeping (fs : FS) (cFiles : List Str) (g : GraphState) : Prop where
  order : g.headers.keys = (cFiles.eraseDups.flatMap (operands fs)).eraseDups
  keys : g.graph.keys = g.headers.keys
  files : ∀ h, g.graph.getD h ∅ = (cFiles.filter fun f => h ∈ operands fs f).toFinset
  last : ∀ h, g.headers.get? h = (cFiles.filter fun f => h ∈ operands fs f).getLast?

theorem bookkeeping_history (fs : FS) (cFiles : List Str) :
    Bookkeeping fs cFiles ((history fs cFiles).foldl record .empty) := by
  have hkeys := OrderedDict.keys_foldl_set (Prod.snd : Str × Str → Str)
    (fun _ fh => fh.1) (history fs cFiles)
  have hgraph := OrderedDict.keys_foldl_set (Prod.snd : Str × Str → Str)
    (fun (d : OrderedDict Str (Finset Str)) fh => insert fh.1 (d.getD fh.2 ∅)) (history fs cFiles)
  refine ⟨?_, ?_, fun h => ?_, fun h => ?_⟩
  · rw [foldl_record_headers, ← eraseDups_flatMap, ← history_operands]
    exact hkeys
  · rw [foldl_record_headers, foldl_record_graph]
    exact hgraph.trans hkeys.symm
  · rw [graph_files]
    ext f
    rw [List.mem_toFinset, List.mem_toFinset, mem_history_filter]
  · rw [foldl_record_headers, ← history_last]
    exact OrderedDict.get?_foldl_set Prod.snd Prod.fst (history fs cFiles) h

/-- Sequences that mention the same files leave the same graph and the same order of headers, if
one of them starts with the other. -/
theorem bookkeeping_repeated {fs : FS} {cFiles more : List Str} {g g' : GraphState}
    (hg : Bookkeeping fs cFiles g) (hg' : Bookkeeping fs (cFiles ++ more) g')
    (hm : ∀ f ∈ more, f ∈ cFiles) : g'.headers.keys = g.headers.keys ∧ g'.graph = g.graph := by
  have hfirst : (cFiles ++ more).eraseDups = cFiles.eraseDups := by
    have hnone : more.removeAll cFiles = [] := by
      rw [List.removeAll, List.filter_eq_nil_iff]
      intro f hf
      simpa using hm f hf
    rw [List.eraseDups_append, hnone]
    simp
  have hkeys : g'.headers.keys = g.headers.keys := by rw [hg.order, hg'.order, hfirst]
  have hgraph : g'.graph.keys = g.graph.keys := by rw [hg.keys, hg'.keys, hkeys]
  have hfiles : ∀ h, g'.graph.getD h ∅ = g.graph.getD h ∅ := by
    intro h
    rw [hg.files, hg'.files]
    ext f
    simp only [List.mem_toFinset, List.mem_filter, List.mem_append]
    exact and_congr_left fun _ => or_iff_left_of_imp (hm f)
  refine ⟨hkeys, OrderedDict.ext_get? hgraph fun h => ?_⟩
  by_cases hk : h ∈ g.graph.keys
  · obtain ⟨v, hv⟩ := (g.graph.mem_keys_iff h).mp hk
    obtain ⟨v', hv'⟩ := (g'.graph.mem_keys_iff h).mp (hgraph ▸ hk)
    have he := hfiles h
    rw [OrderedDict.getD, OrderedDict.getD, hv, hv'] at he
    rw [hv, hv', Option.some.injEq]
    exact he
  · rw [(g.graph.get?_eq_none h).mpr hk, (g'.graph.get?_eq_none h).mpr (hgraph ▸ hk)]

/-- Every sequence of function lines is read, and leaves headers and graph as the history of its
.c sources says. Further lines for files that were seen change neither graph nor the order of the
headers. -/
theorem headers_follow_history (fs : FS) (functions : List (FuncLine fs)) :
    ∃ g, (functions.map FuncLine.line).foldlM (processFuncLine fs) .empty = .ok g ∧
      Bookkeeping fs (sources functions) g ∧
      ∀ more : List (FuncLine fs), (∀ f ∈ sources more, f ∈ sources functions) →
        ∃ g', ((functions ++ more).map FuncLine.line).foldlM (processFuncLine fs) .empty = .ok g' ∧
          g'.headers.keys = g.headers.keys ∧ g'.graph = g.graph := by
  have hrun : ∀ functions : List (FuncLine fs), ∃ g,
      (functions.map FuncLine.line).foldlM (processFuncLine fs) .empty = .ok g ∧
        Bookkeeping fs (sources functions) g := by
    intro functions
    obtain ⟨g, hg, hheaders, hgraph⟩ := processFuncLines_history functions
    obtain ⟨order, keys, files, last⟩ := bookkeeping_history fs (sources functions)
    rw [← hheaders] at order keys last
    rw [← hgraph] at keys files
    exact ⟨g, hg, ⟨order, keys, files, last⟩⟩
  obtain ⟨g, hg, hbook⟩ := hrun functions
  refine ⟨g, hg, hbook, fun more hm => ?_⟩
  obtain ⟨g', hg', hbook'⟩ := hrun (functions ++ more)
  have hsources : sources (functions ++ more) = sources functions ++ sources more := by
    simp [sources, single]
  rw [hsources] at hbook'
  exact ⟨g', hg', bookkeeping_repeated hbook hbook' hm⟩

theorem headers_follow_history_sample :
    ∃ g g', (sampleDocument.functions.map FuncLine.line).foldlM (processFuncLine sampleFiles)
        .empty = .ok g ∧
      ((sampleDocument.functions ++ sampleDocument.functions).map FuncLine.line).foldlM
        (processFuncLine sampleFiles) .empty = .ok g' ∧
      g.headers.keys = ["<x.h>".toList] ∧ g'.headers.keys = g.headers.keys ∧
      g'.graph = g.graph := by
  obtain ⟨g, hg, hbook, hmore⟩ := headers_follow_history sampleFiles sampleDocument.functions
  obtain ⟨g', hg', hkeys, hgraph⟩ := hmore sampleDocument.functions fun f hf => hf
  refine ⟨g, g', hg, hg', ?_, hkeys, hgraph⟩
  rw [hbook.order]
  decide +kernel

end OpenedExtraction.HeaderHistory
