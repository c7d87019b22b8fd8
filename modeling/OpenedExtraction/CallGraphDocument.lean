import OpenedExtraction.CallGraph

/-! The sections of a codequery document and what reading the whole document leaves. -/
namespace OpenedExtraction.CallGraphDocument
open OpenedExtraction.PyText OpenedExtraction.ExtractAndDump OpenedExtraction.CallGraph

def bare (line : Str) : Str := remove ']' (remove '[' line)

/-- Without its square brackets the line is the fields, joined by commas, and a line feed;
the last line of a document may have no line feed. -/
def HasFields (line : Str) (fields : List Str) : Prop :=
  (∀ f ∈ fields, ',' ∉ f) ∧
    ∃ ending, (ending = ['\n'] ∨ ending = []) ∧ bare line = [','].intercalate fields ++ ending

/-- A line of the function section. Only the sources of functions with one definition are read. -/
structure FuncLine (fs : FS) where
  line : Str
  name : Str
  count : Str
  path : Str
  startLine : Str
  further : List Str
  number : Int
  fields : HasFields line (name :: count :: path :: startLine :: further)
  integer : int count = some number
  readable : number ≤ 1 → endswith path cExt = true → ∃ t, fs path = .text t
  noBrace : isBrace line = false

structure MapLine where
  line : Str
  name : Str
  path : Str
  startLine : Str
  found : Str
  fields : HasFields line [name, path, startLine, found]
  noBrace : isBrace line = false

structure Document (fs : FS) where
  openFns : Str
  functions : List (FuncLine fs)
  closeFns : Str
  between : List Str
  openMaps : Str
  maps : List MapLine
  closeMaps : Str
  rest : List Str
  openFns_brace : openFns.head? = some '{'
  closeFns_brace : closeFns.head? = some '}'
  between_noBrace : ∀ line ∈ between, isBrace line = false
  openMaps_brace : openMaps.head? = some '{'
  closeMaps_brace : closeMaps.head? = some '}'

section Document
variable {fs : FS}

def FuncLine.key (f : FuncLine fs) : Str := fnKey f.name f.path

def Document.lines (d : Document fs) : List Str :=
  d.openFns :: d.functions.map FuncLine.line ++ d.closeFns :: d.between ++
    d.openMaps :: d.maps.map MapLine.line ++ d.closeMaps :: d.rest

def single (functions : List (FuncLine fs)) : List (FuncLine fs) :=
  functions.filter fun f => decide (f.number ≤ 1)

def several (functions : List (FuncLine fs)) : List (FuncLine fs) :=
  functions.filter fun f => decide (f.number > 1)

end Document

theorem intercalate_ending (fields : List Str) (last ending : Str) :
    [','].intercalate (fields ++ [last]) ++ ending =
      [','].intercalate (fields ++ [last ++ ending]) := by
  induction fields with
  | nil => simp
  | cons f fields ih =>
    rw [List.cons_append, List.intercalate_cons_of_ne_nil (by simp), List.cons_append,
      List.intercalate_cons_of_ne_nil (by simp), ← ih]
    simp

theorem tokens_of_fields (fields : List Str) {line last : Str}
    (h : HasFields line (fields ++ [last])) :
    ∃ ending, (bare line).splitOn ',' = fields ++ [last ++ ending] := by
  obtain ⟨hcomma, ending, hend, he⟩ := h
  refine ⟨ending, ?_⟩
  rw [he, intercalate_ending, List.splitOn_intercalate]
  · intro f hf
    cases List.mem_append.mp hf with
    | inl hf => exact hcomma f (List.mem_append_left _ hf)
    | inr hf =>
      rw [List.mem_singleton.mp hf, List.mem_append]
      intro hm
      cases hm with
      | inl hm => exact hcomma last (by simp) hm
      | inr hm => cases hend <;> simp_all
  · simp

theorem FuncLine.tokens {fs : FS} (f : FuncLine fs) :
    ∃ start tail, (bare f.line).splitOn ',' = f.name :: f.count :: f.path :: start :: tail := by
  have h := f.fields
  cases List.eq_nil_or_concat f.further with
  | inl hn =>
    rw [hn] at h
    obtain ⟨ending, he⟩ := tokens_of_fields [f.name, f.count, f.path] h
    exact ⟨f.startLine ++ ending, [], he⟩
  | inr hc =>
    obtain ⟨init, last, hc⟩ := hc
    rw [hc, List.concat_eq_append] at h
    obtain ⟨ending, he⟩ :=
      tokens_of_fields (f.name :: f.count :: f.path :: f.startLine :: init) h
    exact ⟨f.startLine, init ++ [last ++ ending], he⟩

theorem MapLine.tokens (m : MapLine) :
    ∃ found, (bare m.line).splitOn ',' = [m.name, m.path, m.startLine, found] := by
  obtain ⟨ending, he⟩ := tokens_of_fields [m.name, m.path, m.startLine] m.fields
  exact ⟨m.found ++ ending, he⟩

def withLists (g : GraphState) (fns : OrderedDict Str (Option Defn))
    (duplicates : List Str) (maps : OrderedDict Str Unit) : GraphState :=
  { g with fns := fns, duplicates := duplicates, maps := maps }

section Sources
variable {fs : FS} {fns : OrderedDict Str (Option Defn)} {duplicates : List Str}
  {maps : OrderedDict Str Unit}

theorem addInclude_withLists {cFile line : Str} {g h : GraphState}
    (hg : addInclude cFile g line = .ok h) :
    addInclude cFile (withLists g fns duplicates maps) line =
      .ok (withLists h fns duplicates maps) := by
  obtain ⟨w, hc, hw, rfl⟩ | ⟨hc, rfl⟩ := addInclude_cases hg
  · rw [addInclude, if_pos hc, bind_eq_ok]
    exact ⟨w, hw, rfl⟩
  · rw [addInclude, hc]
    rfl

theorem foldlM_withLists {cFile : Str} {lines : List Str} {g h : GraphState}
    (hg : lines.foldlM (addInclude cFile) g = .ok h) :
    lines.foldlM (addInclude cFile) (withLists g fns duplicates maps) =
      .ok (withLists h fns duplicates maps) := by
  induction lines generalizing g with
  | nil =>
    rw [List.foldlM_nil] at hg ⊢
    rw [← Except.ok.inj hg]
    rfl
  | cons line lines ih =>
    obtain ⟨g₁, h₁, hg⟩ := foldlM_cons_inv hg
    exact foldlM_cons_ok (addInclude_withLists h₁) (ih hg)

theorem addSource_withLists {src : Str} {g h : GraphState} (hg : addSource fs g src = .ok h) :
    addSource fs (withLists g fns duplicates maps) src =
      .ok (withLists h fns duplicates maps) := by
  by_cases hs : endswith src cExt
  · rw [addSource, if_pos hs, addDependsOn, bind_eq_ok] at hg ⊢
    obtain ⟨lines, hl, hg⟩ := hg
    exact ⟨lines, hl, foldlM_withLists hg⟩
  · rw [addSource, if_neg hs, Except.ok.injEq] at hg ⊢
    rw [hg]

theorem addSource_returns {src : Str} (g : GraphState)
    (hr : endswith src cExt = true → ∃ t, fs src = .text t) :
    ∃ h, addSource fs g src = .ok h := by
  by_cases hs : endswith src cExt
  · obtain ⟨t, ht⟩ := hr hs
    rw [addSource, if_pos hs]
    exact addDependsOn_returns g ht
  · exact ⟨g, by rw [addSource, if_neg hs]⟩

end Sources

section Sections
variable {fs : FS} {fns : OrderedDict Str (Option Defn)} {duplicates : List Str}
  {maps : OrderedDict Str Unit}

theorem processFuncLine_several (f : FuncLine fs) (h : f.number > 1) (g : GraphState) :
    processFuncLine fs (withLists g fns duplicates maps) f.line =
      .ok (withLists g fns (duplicates ++ [bare f.line]) maps) := by
  obtain ⟨start, tail, ht⟩ := f.tokens
  rw [bare] at ht
  simp [processFuncLine, ht, item, toInt, f.integer, h, bind, Except.bind, withLists, bare]

theorem processFuncLine_single (f : FuncLine fs) (h : f.number ≤ 1) {g g₁ : GraphState}
    (hg : addSource fs g f.path = .ok g₁) :
    processFuncLine fs (withLists g fns duplicates maps) f.line =
      .ok (withLists g₁ (fns.set f.key none) duplicates maps) := by
  obtain ⟨start, tail, ht⟩ := f.tokens
  rw [bare] at ht
  have hn : ¬ f.number > 1 := by omega
  simp only [processFuncLine, ht, bind_eq_ok]
  refine ⟨f.name, rfl, f.count, rfl, f.number, by rw [toInt, f.integer], ?_⟩
  rw [if_neg hn, bind_eq_ok]
  refine ⟨f.path, rfl, ?_⟩
  rw [bind_eq_ok]
  refine ⟨withLists g₁ fns duplicates maps, addSource_withLists hg, ?_⟩
  rw [bind_eq_ok]
  exact ⟨start, rfl, rfl⟩

theorem processMapLine_set (m : MapLine) (g : GraphState) :
    processMapLine (withLists g fns duplicates maps) m.line =
      .ok (withLists g fns duplicates (maps.set m.name ())) := by
  obtain ⟨found, ht⟩ := m.tokens
  rw [bare] at ht
  simp [processMapLine, ht, item, bind, Except.bind, withLists]

theorem foldlM_processFuncLine (functions : List (FuncLine fs)) (g : GraphState) :
    ∃ h, ((single functions).map FuncLine.path).foldlM (addSource fs) g = .ok h ∧
      ∀ fns duplicates maps,
        (functions.map FuncLine.line).foldlM (processFuncLine fs)
            (withLists g fns duplicates maps) =
          .ok (withLists h
            (((single functions).map FuncLine.key).foldl (fun d k => d.set k none) fns)
            (duplicates ++ (several functions).map fun f => bare f.line) maps) := by
  induction functions generalizing g with
  | nil => exact ⟨g, rfl, fun _ _ _ => by simp [single, several]; rfl⟩
  | cons f functions ih =>
    by_cases hf : f.number > 1
    · obtain ⟨h, hh, hr⟩ := ih g
      have h1 : ¬ f.number ≤ 1 := by omega
      refine ⟨h, by simpa [single, h1] using hh, ?_⟩
      intro fns duplicates maps
      rw [List.map_cons, foldlM_cons_ok (processFuncLine_several f hf g) (hr _ _ _)]
      simp [single, several, hf, h1]
    · have h1 : f.number ≤ 1 := by omega
      obtain ⟨g₁, hg⟩ := addSource_returns g (f.readable h1)
      obtain ⟨h, hh, hr⟩ := ih g₁
      refine ⟨h, ?_, ?_⟩
      · have hc : single (f :: functions) = f :: single functions := by simp [single, h1]
        rw [hc]
        exact foldlM_cons_ok hg hh
      · intro fns duplicates maps
        rw [List.map_cons, foldlM_cons_ok (processFuncLine_single f h1 hg) (hr _ _ _)]
        simp [single, several, hf, h1]

/-- Between the first two brace lines every line is a function line. -/
theorem foldlM_functions {lines : List Str} (hb : ∀ line ∈ lines, isBrace line = false)
    {g h : GraphState} (hg : lines.foldlM (processFuncLine fs) g = .ok h) :
    lines.foldlM (parseLine fs) (1, g) = .ok (1, h) := by
  induction lines generalizing g with
  | nil =>
    rw [List.foldlM_nil] at hg ⊢
    rw [← Except.ok.inj hg]
    rfl
  | cons line lines ih =>
    obtain ⟨g₁, h₁, hg⟩ := foldlM_cons_inv hg
    have hstep : parseLine fs (1, g) line = .ok (1, g₁) := by
      simp [parseLine, hb line (by simp), h₁, bind, Except.bind]
    exact foldlM_cons_ok hstep (ih (fun l hl => hb l (List.mem_cons_of_mem line hl)) hg)

theorem foldlM_maps (fs : FS) (ms : List MapLine) (g : GraphState) :
    (ms.map MapLine.line).foldlM (parseLine fs) (3, withLists g fns duplicates maps) =
      .ok (3, withLists g fns duplicates
        ((ms.map MapLine.name).foldl (fun d k => d.set k ()) maps)) := by
  induction ms generalizing maps with
  | nil => rfl
  | cons m ms ih =>
    have hstep : parseLine fs (3, withLists g fns duplicates maps) m.line =
        .ok (3, withLists g fns duplicates (maps.set m.name ())) := by
      simp [parseLine, m.noBrace, processMapLine_set m, bind, Except.bind]
    exact foldlM_cons_ok hstep ih

theorem foldlM_between (fs : FS) {lines : List Str} (h : ∀ line ∈ lines, isBrace line = false)
    (g : GraphState) : lines.foldlM (parseLine fs) (2, g) = .ok (2, g) := by
  induction lines with
  | nil => rfl
  | cons line lines ih =>
    have hstep : parseLine fs (2, g) line = .ok (2, g) := by
      simp [parseLine, h line (by simp)]
    exact foldlM_cons_ok hstep (ih fun x hx => h x (List.mem_cons_of_mem line hx))

theorem foldlM_rest (fs : FS) (lines : List Str) {ct : Nat} (hct : 4 ≤ ct) (g : GraphState) :
    ∃ ct', lines.foldlM (parseLine fs) (ct, g) = .ok (ct', g) := by
  induction lines generalizing ct with
  | nil => exact ⟨ct, rfl⟩
  | cons line lines ih =>
    by_cases hb : isBrace line = true
    · obtain ⟨ct', hr⟩ := ih (Nat.le_succ_of_le hct)
      exact ⟨ct', foldlM_cons_ok (by rw [parseLine, if_pos hb]) hr⟩
    · obtain ⟨ct', hr⟩ := ih hct
      have h2 : ¬ ct < 2 := by omega
      have h4 : ¬ (ct > 2 ∧ ct < 4) := by omega
      exact ⟨ct', foldlM_cons_ok (by rw [parseLine, if_neg hb, if_neg h2, if_neg h4]) hr⟩

theorem isBrace_of_head {line : Str} {c : Char} (h : line.head? = some c)
    (hc : c = '{' ∨ c = '}') : isBrace line = true := by
  cases line with
  | nil => simp at h
  | cons x xs =>
    rw [List.head?_cons, Option.some.injEq] at h
    rw [h]
    cases hc <;> simp_all [isBrace]

theorem parseLine_brace (fs : FS) {line : Str} {c : Char} (h : line.head? = some c)
    (hc : c = '{' ∨ c = '}') (ct : Nat) (g : GraphState) :
    parseLine fs (ct, g) line = .ok (ct + 1, g) := by
  rw [parseLine, if_pos (isBrace_of_head h hc)]

end Sections

theorem unresolved_foldl (ks : List Str) {fns : OrderedDict Str (Option Defn)}
    (h : Unresolved fns) : Unresolved (ks.foldl (fun d k => d.set k none) fns) := by
  induction ks generalizing fns with
  | nil => exact h
  | cons k ks ih => exact ih (h.set k)

/-- Reading any document returns, and leaves the listed functions and maps in the order of their
first occurrence, the lines of the functions with several definitions, and the headers of the
sources that were scanned. -/
theorem document_is_recovered (fs : FS) (d : Document fs) :
    ∃ g h, parseFunctionCallGraph fs d.lines .empty = .ok g ∧
      g.fns.keys = ((single d.functions).map FuncLine.key).eraseDups ∧
      Unresolved g.fns ∧
      g.duplicates = ((several d.functions).map fun f => bare f.line) ∧
      g.maps.keys = (d.maps.map MapLine.name).eraseDups ∧
      ((single d.functions).map FuncLine.path).foldlM (addSource fs) .empty = .ok h ∧
      g.headers = h.headers ∧ g.graph = h.graph := by
  obtain ⟨h, hh, hfun⟩ := foldlM_processFuncLine d.functions GraphState.empty
  let fns := ((single d.functions).map FuncLine.key).foldl (fun d k => d.set k none)
    (.empty : OrderedDict Str (Option Defn))
  let duplicates := (several d.functions).map fun f => bare f.line
  let maps := (d.maps.map MapLine.name).foldl (fun d k => d.set k ())
    (.empty : OrderedDict Str Unit)
  have hrun : parseFunctionCallGraph fs d.lines .empty =
      .ok (withLists h fns duplicates maps) := by
    obtain ⟨ct, hrest⟩ := foldlM_rest fs d.rest (le_refl 4) (withLists h fns duplicates maps)
    have hopen := parseLine_brace fs d.openFns_brace (Or.inl rfl) 0 .empty
    have hclose := parseLine_brace fs d.closeFns_brace (Or.inr rfl) 1
      (withLists h fns duplicates .empty)
    have hopen' := parseLine_brace fs d.openMaps_brace (Or.inl rfl) 2
      (withLists h fns duplicates .empty)
    have hclose' := parseLine_brace fs d.closeMaps_brace (Or.inr rfl) 3
      (withLists h fns duplicates maps)
    rw [parseFunctionCallGraph, bind_eq_ok]
    refine ⟨(ct, withLists h fns duplicates maps), ?_, rfl⟩
    have hbrace : ∀ line ∈ d.functions.map FuncLine.line, isBrace line = false := by
      intro line hl
      obtain ⟨f, _, rfl⟩ := List.mem_map.mp hl
      exact f.noBrace
    have h1 := foldlM_cons_ok hopen (foldlM_functions hbrace (hfun .empty [] .empty))
    have h2 := foldlM_cons_ok hclose (foldlM_between fs d.between_noBrace _)
    have h3 := foldlM_cons_ok hopen' (foldlM_maps fs d.maps h)
    have h4 := foldlM_cons_ok hclose' hrest
    exact foldlM_append_ok (foldlM_append_ok (foldlM_append_ok h1 h2) h3) h4
  refine ⟨withLists h fns duplicates maps, h, hrun, ?_, ?_, rfl, ?_, hh, rfl, rfl⟩
  · have hk := OrderedDict.keys_foldl_set id (fun _ _ => (none : Option Defn))
      ((single d.functions).map FuncLine.key)
    rw [List.map_id] at hk
    exact hk
  · exact unresolved_foldl _ fun k v hv => by simp at hv
  · have hk := OrderedDict.keys_foldl_set id (fun _ _ => ()) (d.maps.map MapLine.name)
    rw [List.map_id] at hk
    exact hk

def sampleFiles : FS := filesOf [("a.c".toList, "#include <x.h>\n".toList)]

def sampleFunc (line name path : String) (h : HasFields line.toList
    [name.toList, "1".toList, path.toList, "3".toList]) (hb : isBrace line.toList = false)
    (hr : endswith path.toList cExt = true → ∃ t, sampleFiles path.toList = .text t) :
    FuncLine sampleFiles :=
  ⟨line.toList, name.toList, "1".toList, path.toList, "3".toList, [], 1, h, by decide +kernel,
    fun _ => hr, hb⟩

def sampleDocument : Document sampleFiles where
  openFns := "\x7b\n".toList
  functions :=
    [sampleFunc "f,1,[a.c],3\n" "f" "a.c"
        ⟨by decide +kernel, ['\n'], Or.inl rfl, by decide +kernel⟩ (by decide +kernel)
        fun _ => ⟨_, rfl⟩,
      ⟨"g,2,[x.c,4,y.c,5]\n".toList, "g".toList, "2".toList, "x.c".toList, "4".toList,
        ["y.c".toList, "5".toList], 2,
        ⟨by decide +kernel, ['\n'], Or.inl rfl, by decide +kernel⟩, by decide +kernel,
        fun h => absurd h (by decide), by decide +kernel⟩,
      sampleFunc "[f],1,a.c,3\n" "f" "a.c"
        ⟨by decide +kernel, ['\n'], Or.inl rfl, by decide +kernel⟩ (by decide +kernel)
        fun _ => ⟨_, rfl⟩]
  closeFns := "\x7d\n".toList
  between := ["maps\n".toList]
  openMaps := "\x7b\n".toList
  maps := [⟨"m,[a.c],7,True\n".toList, "m".toList, "a.c".toList, "7".toList, "True".toList,
    ⟨by decide +kernel, ['\n'], Or.inl rfl, by decide +kernel⟩, by decide +kernel⟩]
  closeMaps := "\x7d\n".toList
  rest := ["\x7b tail".toList]
  openFns_brace := by decide +kernel
  closeFns_brace := by decide +kernel
  between_noBrace := by decide +kernel
  openMaps_brace := by decide +kernel
  closeMaps_brace := by decide +kernel

theorem document_is_recovered_sample :
    ∃ g, parseFunctionCallGraph sampleFiles sampleDocument.lines .empty = .ok g ∧
      g.fns.keys = ["f:a.c".toList] ∧ g.duplicates = ["g,2,x.c,4,y.c,5\n".toList] ∧
      g.maps.keys = ["m".toList] := by
  obtain ⟨g, h, hg, hk, _, hd, hm, _⟩ := document_is_recovered sampleFiles sampleDocument
  refine ⟨g, hg, ?_, ?_, ?_⟩
  · rw [hk]
    decide +kernel
  · rw [hd]
    decide +kernel
  · rw [hm]
    decide +kernel

end OpenedExtraction.CallGraphDocument
