import OpenedExtraction.HeaderHistory

/-! The call graph reader on any lines at all: which lines it uses, on which documents it returns,
and what it leaves then. -/
namespace OpenedExtraction.GraphLines
open OpenedExtraction.PyText OpenedExtraction.ExtractAndDump OpenedExtraction.CallGraph
open OpenedExtraction.CallGraphDocument OpenedExtraction.HeaderHistory

/-- The lines that are no brace lines, with the number of brace lines before them. -/
def numbered : Nat → List Str → List (Nat × Str)
  | _, [] => []
  | ct, line :: lines =>
    if isBrace line then numbered (ct + 1) lines else (ct, line) :: numbered ct lines

def functionLines (lines : List Str) : List Str :=
  ((numbered 0 lines).filter fun x => x.1 < 2).map Prod.snd

def mapLines (lines : List Str) : List Str :=
  ((numbered 0 lines).filter fun x => x.1 = 3).map Prod.snd

/-- What the loop does with a line of a section. -/
def sectionLine (fs : FS) (g : GraphState) (x : Nat × Str) : Except PyErr GraphState :=
  if x.1 < 2 then processFuncLine fs g x.2
  else if x.1 = 3 then processMapLine g x.2
  else .ok g

theorem parseLine_section (fs : FS) (s : Nat × GraphState) (line : Str) :
    parseLine fs s line = if isBrace line then .ok (s.1 + 1, s.2)
      else (sectionLine fs s.2 (s.1, line)).map fun g => (s.1, g) := by
  by_cases hb : isBrace line
  · rw [parseLine, if_pos hb, if_pos hb]
  · rw [parseLine, if_neg hb, if_neg hb, sectionLine]
    by_cases h2 : s.1 < 2
    · rw [if_pos h2, if_pos h2]
      cases processFuncLine fs s.2 line <;> rfl
    · rw [if_neg h2, if_neg h2]
      by_cases h3 : s.1 = 3
      · rw [if_pos (by omega), if_pos h3]
        cases processMapLine s.2 line <;> rfl
      · rw [if_neg (by omega), if_neg h3]
        rfl

theorem foldlM_parseLine (fs : FS) (lines : List Str) (ct : Nat) (g : GraphState) :
    (lines.foldlM (parseLine fs) (ct, g)).map Prod.snd =
      (numbered ct lines).foldlM (sectionLine fs) g := by
  induction lines generalizing ct g with
  | nil => rfl
  | cons line lines ih =>
    rw [List.foldlM_cons, parseLine_section, numbered]
    by_cases hb : isBrace line
    · rw [if_pos hb, if_pos hb]
      exact ih (ct + 1) g
    · rw [if_neg hb, if_neg hb, List.foldlM_cons]
      cases sectionLine fs g (ct, line) with
      | error e => rfl
      | ok g₁ => exact ih ct g₁

theorem numbered_ge (ct : Nat) (lines : List Str) : ∀ x ∈ numbered ct lines, ct ≤ x.1 := by
  induction lines generalizing ct with
  | nil => simp [numbered]
  | cons line lines ih =>
    rw [numbered]
    split
    · exact fun x hx => (Nat.le_succ ct).trans (ih (ct + 1) x hx)
    · exact List.forall_mem_cons.mpr ⟨le_rfl, ih ct⟩

theorem numbered_split (n ct : Nat) (lines : List Str) :
    numbered ct lines =
      (numbered ct lines).filter (fun x => x.1 < n) ++
        (numbered ct lines).filter (fun x => n ≤ x.1) := by
  induction lines generalizing ct with
  | nil => rfl
  | cons line lines ih =>
    have hge := numbered_ge ct (line :: lines)
    by_cases hn : n ≤ ct
    · have hnone : (numbered ct (line :: lines)).filter (fun x => x.1 < n) = [] := by
        rw [List.filter_eq_nil_iff]
        intro x hx
        simpa using hn.trans (hge x hx)
      have hall : (numbered ct (line :: lines)).filter (fun x => n ≤ x.1) =
          numbered ct (line :: lines) := by
        rw [List.filter_eq_self]
        intro x hx
        simpa using hn.trans (hge x hx)
      rw [hnone, hall, List.nil_append]
    · rw [numbered]
      split
      · exact ih (ct + 1)
      · rw [List.filter_cons_of_pos (by simpa using hn), List.filter_cons_of_neg (by simpa using hn),
          List.cons_append, ← ih ct]

theorem foldlM_functionSection (fs : FS) {xs : List (Nat × Str)} (h : ∀ x ∈ xs, x.1 < 2)
    (g : GraphState) :
    xs.foldlM (sectionLine fs) g = (xs.map Prod.snd).foldlM (processFuncLine fs) g := by
  induction xs generalizing g with
  | nil => rfl
  | cons x xs ih =>
    rw [List.forall_mem_cons] at h
    rw [List.foldlM_cons, List.map_cons, List.foldlM_cons, sectionLine, if_pos h.1]
    exact congrArg _ (funext fun g => ih h.2 g)

theorem foldlM_mapSection (fs : FS) {xs : List (Nat × Str)} (h : ∀ x ∈ xs, 2 ≤ x.1)
    (g : GraphState) :
    xs.foldlM (sectionLine fs) g =
      ((xs.filter fun x => x.1 = 3).map Prod.snd).foldlM processMapLine g := by
  induction xs generalizing g with
  | nil => rfl
  | cons x xs ih =>
    rw [List.forall_mem_cons] at h
    rw [List.foldlM_cons, sectionLine, if_neg (by omega)]
    by_cases h3 : x.1 = 3
    · rw [if_pos h3, List.filter_cons_of_pos (by simpa using h3), List.map_cons, List.foldlM_cons]
      exact congrArg _ (funext fun g => ih h.2 g)
    · rw [if_neg h3, List.filter_cons_of_neg (by simpa using h3)]
      exact ih h.2 g

/-- Reading a document is reading its function lines and then its map lines. -/
theorem parse_eq (fs : FS) (lines : List Str) (g : GraphState) :
    parseFunctionCallGraph fs lines g =
      (functionLines lines).foldlM (processFuncLine fs) g >>= fun g =>
        (mapLines lines).foldlM processMapLine g := by
  have hmap : ∀ s : Except PyErr (Nat × GraphState),
      (s >>= fun s => Except.ok s.2) = s.map Prod.snd := by
    intro s
    cases s <;> rfl
  have hthree : ((numbered 0 lines).filter fun x => 2 ≤ x.1).filter (fun x => x.1 = 3) =
      (numbered 0 lines).filter fun x => x.1 = 3 := by
    rw [List.filter_filter]
    refine List.filter_congr fun x _ => ?_
    by_cases h3 : x.1 = 3 <;> simp [h3]
  rw [parseFunctionCallGraph, hmap, foldlM_parseLine, numbered_split 2 0 lines, List.foldlM_append,
    foldlM_functionSection fs (by simp), functionLines]
  refine congrArg _ (funext fun g => ?_)
  rw [foldlM_mapSection fs (by simp), hthree, mapLines]

/-- What a function line asks for: nothing but a note, or the function name in the file path. -/
inductive Request where
  | several (line : Str)
  | single (name path : Str)
  deriving DecidableEq, Repr

/-- The request of a function line; there is none if a field is missing or the count is no number. -/
def request (line : Str) : Option Request :=
  let tokens := (bare line).splitOn ','
  tokens[0]?.bind fun name => (tokens[1]?.bind int).bind fun count =>
    if count > 1 then some (.several (bare line))
    else tokens[2]?.bind fun path => tokens[3]?.map fun _ => .single name path

def Request.sources : Request → List Str
  | .several _ => []
  | .single _ path => [path].filter fun src => endswith src cExt

def Request.keys : Request → List Str
  | .several _ => []
  | .single name path => [fnKey name path]

def Request.notes : Request → List Str
  | .several line => [line]
  | .single _ _ => []

def Request.Readable (fs : FS) (r : Request) : Prop := ∀ src ∈ r.sources, ∃ t, fs src = .text t

def Request.serve (fs : FS) (g : GraphState) (r : Request) : GraphState :=
  withLists ((history fs r.sources).foldl record g)
    (r.keys.foldl (fun d k => d.set k none) g.fns) (g.duplicates ++ r.notes) g.maps

theorem toInt_ok_iff (s : Str) (n : Int) : toInt s = .ok n ↔ int s = some n := by
  rw [toInt]
  cases int s <;> simp

theorem foldl_record_withLists (hist : List (Str × Str)) (g : GraphState)
    (fns : OrderedDict Str (Option Defn)) (duplicates : List Str) (maps : OrderedDict Str Unit) :
    hist.foldl record (withLists g fns duplicates maps) =
      withLists (hist.foldl record g) fns duplicates maps := by
  induction hist generalizing g with
  | nil => rfl
  | cons fh hist ih => exact ih (record g fh)

theorem foldl_record_lists (hist : List (Str × Str)) (g : GraphState) :
    hist.foldl record g = withLists (hist.foldl record g) g.fns g.duplicates g.maps :=
  foldl_record_withLists hist g g.fns g.duplicates g.maps

theorem addSource_iff (fs : FS) (g g' : GraphState) (src : Str) :
    addSource fs g src = .ok g' ↔ (endswith src cExt = true → ∃ t, fs src = .text t) ∧
      g' = (history fs ([src].filter fun src => endswith src cExt)).foldl record g := by
  constructor
  · intro h
    have hr : endswith src cExt = true → ∃ t, fs src = .text t := by
      intro hs
      rw [addSource, if_pos hs, addDependsOn, bind_eq_ok] at h
      obtain ⟨lines, hl, _⟩ := h
      rw [openLines] at hl
      cases hf : fs src with
      | text t => exact ⟨t, rfl⟩
      | missing => simp [hf] at hl
      | unreadable => simp [hf] at hl
    rw [addSource_record g hr, Except.ok.injEq] at h
    exact ⟨hr, h.symm⟩
  · intro h
    rw [addSource_record g h.1, h.2]

theorem processFuncLine_iff (fs : FS) (g : GraphState) (line : Str) (g' : GraphState) :
    processFuncLine fs g line = .ok g' ↔
      ∃ r, request line = some r ∧ r.Readable fs ∧ g' = r.serve fs g := by
  have hb : remove ']' (remove '[' line) = bare line := rfl
  simp only [processFuncLine, hb, bind_eq_ok, item_ok_iff, toInt_ok_iff]
  constructor
  · intro h
    obtain ⟨name, hname, count, hcount, n, hn, h⟩ := h
    by_cases hc : n > 1
    · rw [if_pos hc, Except.ok.injEq] at h
      refine ⟨.several (bare line), ?_, ?_, ?_⟩
      · simp [request, hname, hcount, hn, hc]
      · intro src hsrc
        simp [Request.sources] at hsrc
      · rw [← h]
        rfl
    · simp only [if_neg hc, bind_eq_ok, item_ok_iff, Except.ok.injEq, addSource_iff] at h
      obtain ⟨path, hpath, g₁, ⟨hr, rfl⟩, start, hstart, rfl⟩ := h
      refine ⟨.single name path, ?_, ?_, ?_⟩
      · simp [request, hname, hcount, hn, hc, hpath, hstart]
      · intro src hsrc
        simp only [Request.sources, List.mem_filter, List.mem_singleton] at hsrc
        exact hsrc.1 ▸ hr (hsrc.1 ▸ hsrc.2)
      · rw [foldl_record_lists]
        simp [Request.serve, Request.keys, Request.notes, Request.sources, withLists]
  · intro h
    obtain ⟨r, hr, hread, rfl⟩ := h
    simp only [request, Option.bind_eq_some_iff] at hr
    obtain ⟨name, hname, n, ⟨count, hcount, hn⟩, hr⟩ := hr
    refine ⟨name, hname, count, hcount, n, hn, ?_⟩
    by_cases hc : n > 1
    · rw [if_pos hc, Option.some.injEq] at hr
      rw [if_pos hc, ← hr]
      rfl
    · simp only [if_neg hc, Option.bind_eq_some_iff, Option.map_eq_some_iff] at hr
      obtain ⟨path, hpath, start, hstart, rfl⟩ := hr
      simp only [if_neg hc, bind_eq_ok, item_ok_iff, Except.ok.injEq, addSource_iff]
      refine ⟨path, hpath, _, ⟨fun hs => hread path ?_, rfl⟩, start, hstart, ?_⟩
      · simp [Request.sources, hs]
      · rw [foldl_record_lists]
        simp [Request.serve, Request.keys, Request.notes, Request.sources, withLists]

/-- The map that a map line names, if the line has its four fields. -/
def mapName (line : Str) : Option Str :=
  let tokens := (bare line).splitOn ','
  tokens[3]?.bind fun _ => tokens[0]?

def GraphState.addMap (g : GraphState) (name : Str) : GraphState :=
  { g with maps := g.maps.set name () }

theorem processMapLine_iff (g : GraphState) (line : Str) (g' : GraphState) :
    processMapLine g line = .ok g' ↔
      ∃ name, mapName line = some name ∧ True ∧ g' = GraphState.addMap g name := by
  have hb : remove ']' (remove '[' line) = bare line := rfl
  simp only [processMapLine, hb, bind_eq_ok, item_ok_iff, Except.ok.injEq, mapName,
    Option.bind_eq_some_iff, true_and]
  constructor
  · intro h
    obtain ⟨name, hname, src, hsrc, start, hstart, found, hfound, rfl⟩ := h
    exact ⟨name, ⟨found, hfound, hname⟩, rfl⟩
  · intro h
    obtain ⟨name, ⟨found, hfound, hname⟩, rfl⟩ := h
    have hlt : 3 < ((bare line).splitOn ',').length := (List.getElem?_eq_some_iff.mp hfound).1
    exact ⟨name, hname, _, List.getElem?_eq_getElem (by omega), _,
      List.getElem?_eq_getElem (by omega), found, hfound, rfl⟩

def requests (lines : List Str) : List Request := (functionLines lines).filterMap request

def mapNames (lines : List Str) : List Str := (mapLines lines).filterMap mapName

/-- The documents on which reading returns. -/
structure Accepted (fs : FS) (lines : List Str) : Prop where
  functions : ∀ line ∈ functionLines lines, ∃ r, request line = some r ∧ r.Readable fs
  maps : ∀ line ∈ mapLines lines, ∃ name, mapName line = some name

/-- What reading leaves: requests, notes and map names in the order of their first mention, and
the headers of the scanned sources. -/
structure Recovered (fs : FS) (lines : List Str) (g : GraphState) : Prop where
  functions : g.fns.keys = ((requests lines).flatMap Request.keys).eraseDups
  unresolved : Unresolved g.fns
  duplicates : g.duplicates = (requests lines).flatMap Request.notes
  maps : g.maps.keys = (mapNames lines).eraseDups
  headers : Bookkeeping fs ((requests lines).flatMap Request.sources) g

def afterLines (fs : FS) (lines : List Str) (g : GraphState) : GraphState :=
  (mapNames lines).foldl GraphState.addMap ((requests lines).foldl (Request.serve fs) g)

theorem parse_ok_iff (fs : FS) (lines : List Str) (g g' : GraphState) :
    parseFunctionCallGraph fs lines g = .ok g' ↔
      Accepted fs lines ∧ g' = afterLines fs lines g := by
  rw [parse_eq, bind_eq_ok]
  simp only [foldlM_decode_iff (processFuncLine_iff fs), foldlM_decode_iff processMapLine_iff,
    and_true]
  constructor
  · intro h
    obtain ⟨_, ⟨hf, rfl⟩, hm, rfl⟩ := h
    exact ⟨⟨hf, hm⟩, rfl⟩
  · intro h
    obtain ⟨⟨hf, hm⟩, rfl⟩ := h
    exact ⟨_, ⟨hf, rfl⟩, hm, rfl⟩

theorem foldl_serve_eq (fs : FS) (rs : List Request) (g : GraphState) :
    rs.foldl (Request.serve fs) g =
      withLists ((history fs (rs.flatMap Request.sources)).foldl record g)
        ((rs.flatMap Request.keys).foldl (fun d k => d.set k none) g.fns)
        (g.duplicates ++ rs.flatMap Request.notes) g.maps := by
  induction rs generalizing g with
  | nil =>
    simp only [List.flatMap_nil, List.append_nil]
    rfl
  | cons r rs ih =>
    rw [List.foldl_cons, ih, Request.serve, foldl_record_withLists]
    simp [withLists, history, List.flatMap_append, List.foldl_append]

theorem foldl_addMap_eq (names : List Str) (g : GraphState) :
    names.foldl GraphState.addMap g =
      { g with maps := names.foldl (fun d k => d.set k ()) g.maps } := by
  induction names generalizing g with
  | nil => rfl
  | cons name names ih =>
    rw [List.foldl_cons, ih]
    rfl

theorem afterLines_recovered (fs : FS) (lines : List Str) :
    Recovered fs lines (afterLines fs lines .empty) := by
  have hbook := bookkeeping_history fs ((requests lines).flatMap Request.sources)
  rw [afterLines, foldl_serve_eq, foldl_addMap_eq]
  refine ⟨?_, ?_, rfl, ?_, ⟨hbook.order, hbook.keys, hbook.files, hbook.last⟩⟩
  · have hk := OrderedDict.keys_foldl_set id (fun _ _ => (none : Option Defn))
      ((requests lines).flatMap Request.keys)
    rw [List.map_id] at hk
    exact hk
  · exact unresolved_foldl _ fun k v hv => by simp [GraphState.empty] at hv
  · have hk := OrderedDict.keys_foldl_set id (fun _ _ => ()) (mapNames lines)
    rw [List.map_id] at hk
    rw [foldl_record_lists]
    exact hk

end OpenedExtraction.GraphLines
