import OpenedExtraction.FunctionTable

/-! Map definitions: extract_maps_from_struct_defs and the loop that writes them. -/
namespace OpenedExtraction.Maps
open OpenedExtraction.PyText OpenedExtraction.ExtractAndDump OpenedExtraction.CallGraph
open OpenedExtraction.FunctionTable

/-- One element of a definition list of struct_info. -/
structure StructDefn where
  fileName : Str
  startLine : Int
  endLine : Int
  deriving DecidableEq, Repr

abbrev StructTable := OrderedDict Str (List StructDefn)

/-- A text of op_maps, with the struct and the definition that it was made for. -/
structure MapEntry where
  struct : Str
  defn : StructDefn
  text : Str
  deriving DecidableEq, Repr

structure MapsState (fs : FS) where
  opMaps : OrderedDict Str (List MapEntry)
  presDict : PresDict fs
  defineFiles : Finset Str

def doesStructContainMap (str : Str) (maps : List Str) : Option Str :=
  maps.find? (fun key => key ∈ split str)

def structHead (d : StructDefn) : Str :=
  "//fileName ".toList ++ d.fileName ++ " startLine: ".toList ++ str d.startLine ++
    " endLine: ".toList ++ str d.endLine ++ "\n".toList

/-- The body of the inner loop. The loop variable structStr is rewritten, so it is part of
the state; struct is the key of the table. -/
def addStructDefn {fs : FS} (maps : List Str) (struct : Str) (s : Str × MapsState fs)
    (d : StructDefn) : Except PyErr (Str × MapsState fs) := do
  let presDict ← s.2.presDict.ensure d.fileName
  match doesStructContainMap s.1 maps with
  | none => .ok (s.1, { s.2 with presDict := presDict })
  | some mapName =>
    let structStr := structHead d ++ s.1
    -- the set is extended by a variable that is defined nowhere
    if endswith d.fileName cExt then .error .nameError
    else .ok (structStr,
      { s.2 with opMaps := s.2.opMaps.appendAt mapName ⟨struct, d, structStr⟩
                 presDict := presDict })

def addStruct {fs : FS} (maps : List Str) (st : MapsState fs) (kv : Str × List StructDefn) :
    Except PyErr (MapsState fs) := do
  let s ← kv.2.foldlM (addStructDefn maps kv.1) (kv.1, st)
  .ok s.2

def extractMapsFromStructDefs {fs : FS} (table : StructTable) (maps : List Str)
    (st : MapsState fs) : Except PyErr (MapsState fs) :=
  table.items.foldlM (addStruct maps) st

/-- What the map-writing loop writes: an entry, or one of its own comments. -/
inductive MapWrite where
  | entry (e : MapEntry)
  | note (text : Str)

def MapWrite.text : MapWrite → Str
  | .entry e => e.text
  | .note t => t

def dupNote (s : Str) : List MapWrite :=
  [.note "//DUP Defn at: ".toList,
    .note (splitSep "//".toList (s.takeWhile (· ≠ '\n'))).flatten, .note "\n".toList]

def writeEntry (isDup : Bool) (e : MapEntry) : List MapWrite :=
  if !contains hExt e.text then [.entry e]
  else if isDup then dupNote e.text
  else []

/-- The body of the map-writing loop for the entries of one map name. -/
def writeMap (entries : List MapEntry) : List MapWrite :=
  let isDup := decide (entries.length > 1)
  (if isDup then [.note "//ATTENTION BEGIN: DUPLICATE MAP DEFNS\n".toList] else []) ++
    entries.flatMap (writeEntry isDup) ++
    (if isDup then [.note "//ATTENTION END \n".toList] else [])

def writeMaps (opMaps : OrderedDict Str (List MapEntry)) : List MapWrite :=
  opMaps.items.flatMap fun kv => writeMap kv.2

def writtenEntries (ws : List MapWrite) : List MapEntry :=
  ws.filterMap fun w => match w with
    | .entry e => some e
    | .note _ => none

def HoldsMap (maps : List Str) (struct : Str) : Prop := ∃ k ∈ maps, k ∈ split struct

instance (maps : List Str) (struct : Str) : Decidable (HoldsMap maps struct) :=
  inferInstanceAs (Decidable (∃ k ∈ maps, k ∈ split struct))

theorem doesStructContainMap_eq_none (maps : List Str) (str : Str) :
    doesStructContainMap str maps = none ↔ ¬ HoldsMap maps str := by
  simp [doesStructContainMap, HoldsMap]

theorem structHead_append (d : StructDefn) (s : Str) :
    structHead d ++ s = ("//fileName ".toList ++ d.fileName ++ " startLine: ".toList ++
      str d.startLine ++ " endLine: ".toList ++ str d.endLine) ++ '\n' :: s := by
  have hcut : ∀ x n : Str, n = ['\n'] → x ++ n ++ s = x ++ '\n' :: s := by
    intro x n hn
    simp [hn]
  exact hcut _ _ rfl

theorem HoldsMap.head {maps : List Str} {struct : Str} (h : HoldsMap maps struct)
    (d : StructDefn) : HoldsMap maps (structHead d ++ struct) := by
  obtain ⟨k, hk, hs⟩ := h
  refine ⟨k, hk, ?_⟩
  rw [structHead_append, split_append _ _ _ (by decide)]
  exact List.mem_append_right _ hs

/-- The texts made for the definitions of a struct: each has the comments of the earlier
definitions too. -/
def entriesFrom (struct : Str) : Str → List StructDefn → List MapEntry
  | _, [] => []
  | cur, d :: ds => ⟨struct, d, structHead d ++ cur⟩ :: entriesFrom struct (structHead d ++ cur) ds

def mapEntries (maps : List Str) (kv : Str × List StructDefn) : List MapEntry :=
  if HoldsMap maps kv.1 then entriesFrom kv.1 kv.1 kv.2 else []

/-- What the inner loop appends from the text cur on, with the map names. A text without a map name
gives nothing, for this definition and for the later ones. -/
def appends (maps : List Str) (struct : Str) : Str → List StructDefn → List (Str × MapEntry)
  | _, [] => []
  | cur, d :: ds =>
    match doesStructContainMap cur maps with
    | none => []
    | some k =>
      (k, ⟨struct, d, structHead d ++ cur⟩) :: appends maps struct (structHead d ++ cur) ds

def structAppends (maps : List Str) (kv : Str × List StructDefn) : List (Str × MapEntry) :=
  appends maps kv.1 kv.1 kv.2

section Appends
variable {maps : List Str} {struct cur : Str} {ds : List StructDefn}

theorem appends_of_not_holds (h : ¬ HoldsMap maps cur) : appends maps struct cur ds = [] := by
  cases ds with
  | nil => rfl
  | cons d ds => rw [appends, (doesStructContainMap_eq_none maps cur).mpr h]

theorem appends_entries (h : HoldsMap maps cur) :
    (appends maps struct cur ds).map Prod.snd = entriesFrom struct cur ds := by
  induction ds generalizing cur with
  | nil => rfl
  | cons d ds ih =>
    cases hm : doesStructContainMap cur maps with
    | none => exact absurd h ((doesStructContainMap_eq_none maps cur).mp hm)
    | some k => rw [appends, hm, entriesFrom, List.map_cons, ih (h.head d)]

theorem structAppends_entries (maps : List Str) (kv : Str × List StructDefn) :
    (structAppends maps kv).map Prod.snd = mapEntries maps kv := by
  rw [structAppends, mapEntries]
  by_cases hh : HoldsMap maps kv.1
  · rw [if_pos hh, appends_entries hh]
  · rw [if_neg hh, appends_of_not_holds hh, List.map_nil]

end Appends

section Steps
variable {fs : FS} {maps : List Str} {struct : Str} {s s' : Str × MapsState fs} {d : StructDefn}

theorem addStructDefn_spec (h : addStructDefn maps struct s d = .ok s') :
    s'.2.defineFiles = s.2.defineFiles ∧
      ((¬ HoldsMap maps s.1 ∧ s'.1 = s.1 ∧ s'.2.opMaps = s.2.opMaps) ∨
        (HoldsMap maps s.1 ∧ endswith d.fileName cExt = false ∧ s'.1 = structHead d ++ s.1 ∧
          ∃ k, doesStructContainMap s.1 maps = some k ∧
            s'.2.opMaps = s.2.opMaps.appendAt k ⟨struct, d, structHead d ++ s.1⟩)) := by
  rw [addStructDefn, bind_eq_ok] at h
  obtain ⟨pd, _, h⟩ := h
  cases hm : doesStructContainMap s.1 maps with
  | none =>
    simp only [hm, Except.ok.injEq] at h
    rw [← h]
    exact ⟨rfl, Or.inl ⟨(doesStructContainMap_eq_none maps s.1).mp hm, rfl, rfl⟩⟩
  | some k =>
    have hh : HoldsMap maps s.1 := by
      by_contra hn
      rw [(doesStructContainMap_eq_none maps s.1).mpr hn] at hm
      cases hm
    cases hc : endswith d.fileName cExt with
    | true => simp [hm, hc] at h
    | false =>
      simp only [hm, hc, Bool.false_eq_true, if_false, Except.ok.injEq] at h
      rw [← h]
      exact ⟨rfl, Or.inr ⟨hh, rfl, rfl, k, rfl, rfl⟩⟩

theorem addStructDefn_ok (hs : ScanOk fs d.fileName)
    (hc : HoldsMap maps s.1 → endswith d.fileName cExt = false) :
    ∃ s', addStructDefn maps struct s d = .ok s' := by
  obtain ⟨pd, hpd⟩ := ensure_ok s.2.presDict hs
  simp only [addStructDefn, hpd, bind, Except.bind]
  cases hm : doesStructContainMap s.1 maps with
  | none => exact ⟨_, rfl⟩
  | some k =>
    have hh : HoldsMap maps s.1 := by
      by_contra hn
      rw [(doesStructContainMap_eq_none maps s.1).mpr hn] at hm
      cases hm
    simp [hc hh]

end Steps

section Runs
variable {fs : FS} {maps : List Str}

theorem inner_appends {struct : Str} {ds : List StructDefn} {s s' : Str × MapsState fs}
    (h : ds.foldlM (addStructDefn maps struct) s = .ok s') :
    s'.2.opMaps = (appends maps struct s.1 ds).foldl (fun o p => o.appendAt p.1 p.2)
      s.2.opMaps := by
  induction ds generalizing s with
  | nil =>
    rw [foldlM_nil_inv h]
    rfl
  | cons d ds ih =>
    obtain ⟨s₁, h₁, h⟩ := foldlM_cons_inv h
    rw [ih h]
    cases (addStructDefn_spec h₁).2 with
    | inl hn =>
      obtain ⟨hn, hcur, hop⟩ := hn
      rw [hcur, hop, appends_of_not_holds hn, appends_of_not_holds hn]
    | inr hy =>
      obtain ⟨_, _, hcur, k, hm, hop⟩ := hy
      rw [hcur, hop, appends, hm]
      rfl

theorem inner_files {struct : Str} {ds : List StructDefn} {s s' : Str × MapsState fs}
    (h : ds.foldlM (addStructDefn maps struct) s = .ok s') :
    s'.2.defineFiles = s.2.defineFiles ∧
      (HoldsMap maps s.1 → ∀ d ∈ ds, endswith d.fileName cExt = false) := by
  induction ds generalizing s with
  | nil =>
    rw [foldlM_nil_inv h]
    simp
  | cons d ds ih =>
    obtain ⟨s₁, h₁, h⟩ := foldlM_cons_inv h
    obtain ⟨hf, hstep⟩ := addStructDefn_spec h₁
    obtain ⟨hf', hc'⟩ := ih h
    refine ⟨hf'.trans hf, fun hh => ?_⟩
    cases hstep with
    | inl hn => exact absurd hh hn.1
    | inr hy =>
      obtain ⟨_, hc, hcur, _⟩ := hy
      rw [hcur] at hc'
      exact List.forall_mem_cons.mpr ⟨hc, hc' (hh.head d)⟩

theorem inner_ok {struct : Str} {ds : List StructDefn} {s : Str × MapsState fs}
    (hs : ∀ d ∈ ds, ScanOk fs d.fileName)
    (hc : HoldsMap maps s.1 → ∀ d ∈ ds, endswith d.fileName cExt = false) :
    ∃ s', ds.foldlM (addStructDefn maps struct) s = .ok s' := by
  induction ds generalizing s with
  | nil => exact ⟨s, rfl⟩
  | cons d ds ih =>
    obtain ⟨s₁, h₁⟩ := @addStructDefn_ok fs maps struct s d (hs d (by simp))
      fun hh => hc hh d (by simp)
    have hholds : HoldsMap maps s₁.1 → HoldsMap maps s.1 := by
      intro hh
      cases (addStructDefn_spec h₁).2 with
      | inl hn => exact hn.2.1 ▸ hh
      | inr hy => exact hy.1
    obtain ⟨s', h'⟩ := ih (fun x hx => hs x (by simp [hx]))
      fun hh x hx => hc (hholds hh) x (by simp [hx])
    exact ⟨s', by rw [List.foldlM_cons, h₁]; exact h'⟩

theorem inner_scanned {struct : Str} {ds : List StructDefn} {s s' : Str × MapsState fs}
    (h : ds.foldlM (addStructDefn maps struct) s = .ok s') : ∀ d ∈ ds, ScanOk fs d.fileName := by
  induction ds generalizing s with
  | nil => simp
  | cons d ds ih =>
    obtain ⟨s₁, h₁, h⟩ := foldlM_cons_inv h
    rw [addStructDefn, bind_eq_ok] at h₁
    obtain ⟨pd, hpd, _⟩ := h₁
    exact List.forall_mem_cons.mpr ⟨(ensure_spec hpd).1, ih h⟩

theorem addStruct_returns_iff (st : MapsState fs) (kv : Str × List StructDefn) :
    (∃ st', addStruct maps st kv = .ok st') ↔ (∀ d ∈ kv.2, ScanOk fs d.fileName) ∧
      (HoldsMap maps kv.1 → ∀ d ∈ kv.2, endswith d.fileName cExt = false) := by
  simp only [addStruct, bind_eq_ok]
  constructor
  · intro h
    obtain ⟨st', s, hs, _⟩ := h
    exact ⟨inner_scanned hs, (inner_files hs).2⟩
  · intro h
    obtain ⟨hscan, hc⟩ := h
    obtain ⟨s, hs⟩ := @inner_ok fs maps kv.1 kv.2 (kv.1, st) hscan hc
    exact ⟨s.2, s, hs, rfl⟩

def NoCDefinition (maps : List Str) (items : List (Str × List StructDefn)) : Prop :=
  ∀ kv ∈ items, HoldsMap maps kv.1 → ∀ d ∈ kv.2, endswith d.fileName cExt = false

theorem outer_appends {items : List (Str × List StructDefn)} {st st' : MapsState fs}
    (h : items.foldlM (addStruct maps) st = .ok st') :
    st'.opMaps = (items.flatMap (structAppends maps)).foldl (fun o p => o.appendAt p.1 p.2)
      st.opMaps := by
  induction items generalizing st with
  | nil =>
    rw [foldlM_nil_inv h]
    rfl
  | cons kv items ih =>
    obtain ⟨st₁, h₁, h⟩ := foldlM_cons_inv h
    rw [addStruct, bind_eq_ok] at h₁
    obtain ⟨s, hs, he⟩ := h₁
    rw [← Except.ok.inj he] at h
    rw [ih h, inner_appends hs, List.flatMap_cons, List.foldl_append]
    rfl

theorem outer_returns_iff (items : List (Str × List StructDefn)) (st : MapsState fs) :
    (∃ st', items.foldlM (addStruct maps) st = .ok st') ↔
      (∀ kv ∈ items, ∀ d ∈ kv.2, ScanOk fs d.fileName) ∧ NoCDefinition maps items := by
  rw [foldlM_returns_iff addStruct_returns_iff, NoCDefinition, ← forall₂_and]

theorem outer_spec {items : List (Str × List StructDefn)} {st st' : MapsState fs}
    (h : items.foldlM (addStruct maps) st = .ok st') :
    st'.defineFiles = st.defineFiles ∧ NoCDefinition maps items ∧
      st'.opMaps.elements.Perm (st.opMaps.elements ++ items.flatMap (mapEntries maps)) := by
  have hfiles : st'.defineFiles = st.defineFiles := by
    refine foldlM_invariant (fun x => x.defineFiles = st.defineFiles) ?_ h rfl
    intro a kv b _ ha hb
    rw [addStruct, bind_eq_ok] at hb
    obtain ⟨s, hs, he⟩ := hb
    rw [← Except.ok.inj he, (inner_files hs).1, ha]
  have hentries : (items.flatMap (structAppends maps)).map Prod.snd =
      items.flatMap (mapEntries maps) := by
    simp only [List.map_flatMap, structAppends_entries]
  refine ⟨hfiles, ((outer_returns_iff items st).mp ⟨st', h⟩).2, ?_⟩
  rw [outer_appends h, ← hentries]
  exact OrderedDict.elements_foldl_appendAt _ _

end Runs

theorem writtenEntries_writeEntry (isDup : Bool) (e : MapEntry) :
    writtenEntries (writeEntry isDup e) = if contains hExt e.text then [] else [e] := by
  cases hc : contains hExt e.text with
  | false => simp [writeEntry, hc, writtenEntries]
  | true => cases isDup <;> simp [writeEntry, hc, writtenEntries, dupNote]

theorem writtenEntries_append (ws ws' : List MapWrite) :
    writtenEntries (ws ++ ws') = writtenEntries ws ++ writtenEntries ws' :=
  List.filterMap_append

theorem writtenEntries_writeMap (es : List MapEntry) :
    writtenEntries (writeMap es) = es.filter fun e => !contains hExt e.text := by
  have hnote : ∀ (b : Bool) (t : Str), writtenEntries (if b then [.note t] else []) = [] := by
    intro b t
    cases b <;> rfl
  have hbody : ∀ (b : Bool) (es : List MapEntry), writtenEntries (es.flatMap (writeEntry b)) =
      es.filter fun e => !contains hExt e.text := by
    intro b es
    induction es with
    | nil => rfl
    | cons e es ih =>
      rw [List.flatMap_cons, writtenEntries_append, writtenEntries_writeEntry, ih]
      cases hc : contains hExt e.text <;> simp [hc]
  rw [writeMap, writtenEntries_append, writtenEntries_append, hnote, hnote, hbody,
    List.nil_append, List.append_nil]

theorem writtenEntries_writeMaps (opMaps : OrderedDict Str (List MapEntry)) :
    writtenEntries (writeMaps opMaps) =
      opMaps.elements.filter fun e => !contains hExt e.text := by
  rw [writeMaps, OrderedDict.elements]
  induction opMaps.items with
  | nil => rfl
  | cons kv items ih =>
    rw [List.flatMap_cons, List.flatMap_cons, writtenEntries_append, List.filter_append, ih,
      writtenEntries_writeMap]

theorem infix_structHead (d : StructDefn) (cur : Str) :
    hExt <:+: structHead d ++ cur ↔ hExt <:+: d.fileName ∨ hExt <:+: cur := by
  have hdot : ∀ n : Int, '.' ∉ str n := fun n => not_mem_str n '.' (by decide) (by decide)
  have hno : ∀ l : Str, '.' ∉ l → ¬ hExt <:+: l := fun l hl hi => hl (hi.subset (by decide))
  have hcut : ∀ a b c f g x : Str, a = b ++ [' '] → c = ' ' :: g → '.' ∉ b → '.' ∉ g →
      '.' ∉ x → (hExt <:+: (a ++ f ++ c ++ str d.startLine ++ x ++ str d.endLine) ++ '\n' :: cur ↔
        hExt <:+: f ∨ hExt <:+: cur) := by
    intro a b c f g x ha hc hb hg hx
    have he : a ++ f ++ c ++ str d.startLine ++ x ++ str d.endLine =
        b ++ ' ' :: (f ++ ' ' :: (g ++ str d.startLine ++ x ++ str d.endLine)) := by
      simp [ha, hc]
    have hrest : ¬ hExt <:+: g ++ str d.startLine ++ x ++ str d.endLine :=
      hno _ (by simp [hg, hx, hdot])
    rw [infix_append_cons (by decide), he, infix_append_cons (by decide),
      infix_append_cons (by decide), or_iff_right (hno b hb), or_iff_left hrest]
  rw [structHead_append]
  exact hcut _ "//fileName".toList _ _ "startLine: ".toList _ (by decide +kernel)
    (by decide +kernel) (by decide +kernel) (by decide +kernel) (by decide +kernel)

/-- The definitions of a struct that the writing loop treats as the file names say: outside
headers, neither the struct nor the names of the files listed so far hold ".h". -/
def PlainNames (struct : Str) (ds : List StructDefn) : Prop :=
  ∀ before d after, ds = before ++ d :: after → endswith d.fileName hExt = false →
    ¬ hExt <:+: struct ∧ ∀ d' ∈ before ++ [d], ¬ hExt <:+: d'.fileName

theorem plainNames_cons (cur : Str) (d : StructDefn) (ds : List StructDefn) :
    PlainNames cur (d :: ds) ↔
      (endswith d.fileName hExt = false → ¬ hExt <:+: structHead d ++ cur) ∧
        PlainNames (structHead d ++ cur) ds := by
  simp only [PlainNames, infix_structHead, not_or]
  constructor
  · intro h
    refine ⟨fun hd => ?_, fun before d' after he hd' => ?_⟩
    · have h0 := h [] d ds rfl hd
      exact ⟨h0.2 d (by simp), h0.1⟩
    · have h1 := h (d :: before) d' after (by rw [he]; rfl) hd'
      exact ⟨⟨h1.2 d (by simp), h1.1⟩, fun x hx => h1.2 x (List.mem_cons_of_mem d hx)⟩
  · intro h before d' after he hd'
    obtain ⟨hd, hds⟩ := h
    cases before with
    | nil =>
      simp only [List.nil_append, List.cons.injEq] at he
      rw [← he.1] at hd' ⊢
      exact ⟨(hd hd').2, by simpa using (hd hd').1⟩
    | cons b before =>
      simp only [List.cons_append, List.cons.injEq] at he
      obtain ⟨⟨hf, hcur⟩, hrest⟩ := hds before d' after he.2 hd'
      rw [← he.1]
      exact ⟨hcur, by simpa using ⟨hf, by simpa using hrest⟩⟩

theorem plainNames_iff (struct cur : Str) (ds : List StructDefn) :
    (∀ e ∈ entriesFrom struct cur ds, endswith e.defn.fileName hExt = false →
      ¬ hExt <:+: e.text) ↔ PlainNames cur ds := by
  induction ds generalizing cur with
  | nil => simp [entriesFrom, PlainNames]
  | cons d ds ih => rw [entriesFrom, List.forall_mem_cons, plainNames_cons, ih]

theorem entriesFrom_text {struct cur : Str} (hcur : struct <:+ cur) (ds : List StructDefn) :
    ∀ e ∈ entriesFrom struct cur ds, e.struct <:+ e.text ∧
      (endswith e.defn.fileName hExt = true → hExt <:+: e.text) := by
  induction ds generalizing cur with
  | nil => simp [entriesFrom]
  | cons d ds ih =>
    rw [entriesFrom, List.forall_mem_cons]
    have hnext : struct <:+ structHead d ++ cur := hcur.trans (List.suffix_append _ cur)
    refine ⟨⟨hnext, fun hd => ?_⟩, ih hnext⟩
    exact (infix_structHead d cur).mpr (Or.inl (List.isSuffixOf_iff_suffix.mp hd).isInfix)

def expectedFor (maps : List Str) (kv : Str × List StructDefn) : List (Str × StructDefn) :=
  if HoldsMap maps kv.1 then
    (kv.2.filter fun d => !endswith d.fileName hExt).map fun d => (kv.1, d)
  else []

def MapEntry.source (e : MapEntry) : Str × StructDefn := (e.struct, e.defn)

theorem sources_entriesFrom (struct cur : Str) (ds : List StructDefn) :
    ((entriesFrom struct cur ds).filter fun e => !endswith e.defn.fileName hExt).map
        MapEntry.source =
      (ds.filter fun d => !endswith d.fileName hExt).map fun d => (struct, d) := by
  induction ds generalizing cur with
  | nil => rfl
  | cons d ds ih =>
    have hi := ih (structHead d ++ cur)
    cases hd : endswith d.fileName hExt with
    | true => simpa [entriesFrom, hd] using hi
    | false => simpa [entriesFrom, hd, MapEntry.source] using hi

theorem sources_mapEntries (maps : List Str) (items : List (Str × List StructDefn)) :
    ((items.flatMap (mapEntries maps)).filter fun e => !endswith e.defn.fileName hExt).map
        MapEntry.source = items.flatMap (expectedFor maps) := by
  induction items with
  | nil => rfl
  | cons kv items ih =>
    rw [List.flatMap_cons, List.flatMap_cons, List.filter_append, List.map_append, ih]
    by_cases hh : HoldsMap maps kv.1
    · rw [mapEntries, expectedFor, if_pos hh, if_pos hh, sources_entriesFrom]
    · rw [mapEntries, expectedFor, if_neg hh, if_neg hh, List.filter_nil, List.map_nil]

def IsMapSource (maps : List Str) (items : List (Str × List StructDefn)) (f : Str) : Prop :=
  ∃ kv ∈ items, HoldsMap maps kv.1 ∧ ∃ d ∈ kv.2, d.fileName = f ∧ endswith f cExt = true

/-- The extraction returns, records exactly the .c files with a map, and the struct texts
are written once for each of their definitions outside headers and for no other one. -/
def MapsExtracted {fs : FS} (table : StructTable) (maps : List Str) (st : MapsState fs) : Prop :=
  ∃ st', extractMapsFromStructDefs table maps st = .ok st' ∧
    (∀ f, f ∈ st'.defineFiles ↔ f ∈ st.defineFiles ∨ IsMapSource maps table.items f) ∧
    ((writtenEntries (writeMaps st'.opMaps)).map MapEntry.source).Perm
      (table.items.flatMap (expectedFor maps)) ∧
    ∀ e ∈ writtenEntries (writeMaps st'.opMaps), e.struct <:+ e.text

theorem written_iff {es : List MapEntry}
    (htext : ∀ e ∈ es, endswith e.defn.fileName hExt = true → hExt <:+: e.text) :
    ((es.filter fun e => !contains hExt e.text).map MapEntry.source).Perm
        ((es.filter fun e => !endswith e.defn.fileName hExt).map MapEntry.source) ↔
      ∀ e ∈ es, endswith e.defn.fileName hExt = false → ¬ hExt <:+: e.text := by
  have hsub : (es.filter fun e => !contains hExt e.text) =
      (es.filter fun e => !endswith e.defn.fileName hExt).filter fun e =>
        !contains hExt e.text := by
    rw [List.filter_filter]
    refine List.filter_congr fun e he => ?_
    cases hd : endswith e.defn.fileName hExt with
    | true => simp [contains, htext e he hd]
    | false => simp
  have hall : (∀ e ∈ es, endswith e.defn.fileName hExt = false → ¬ hExt <:+: e.text) ↔
      ∀ e ∈ es.filter (fun e => !endswith e.defn.fileName hExt),
        (!contains hExt e.text) = true := by
    simp [contains]
  rw [hall, ← List.length_filter_eq_length_iff, ← hsub]
  constructor
  · intro hp
    simpa using hp.length_eq
  · intro hl
    rw [List.Sublist.eq_of_length (hsub ▸ List.filter_sublist) hl]

theorem mapEntries_text (maps : List Str) (items : List (Str × List StructDefn)) :
    ∀ e ∈ items.flatMap (mapEntries maps), e.struct <:+ e.text ∧
      (endswith e.defn.fileName hExt = true → hExt <:+: e.text) := by
  intro e he
  obtain ⟨kv, _, he⟩ := List.mem_flatMap.mp he
  by_cases hh : HoldsMap maps kv.1
  · rw [mapEntries, if_pos hh] at he
    exact entriesFrom_text List.suffix_rfl kv.2 e he
  · rw [mapEntries, if_neg hh] at he
    simp at he

theorem mapEntries_plain_iff (maps : List Str) (items : List (Str × List StructDefn)) :
    (∀ e ∈ items.flatMap (mapEntries maps), endswith e.defn.fileName hExt = false →
        ¬ hExt <:+: e.text) ↔
      ∀ kv ∈ items, HoldsMap maps kv.1 → PlainNames kv.1 kv.2 := by
  have hone : ∀ kv : Str × List StructDefn,
      (∀ e ∈ mapEntries maps kv, endswith e.defn.fileName hExt = false → ¬ hExt <:+: e.text) ↔
        (HoldsMap maps kv.1 → PlainNames kv.1 kv.2) := by
    intro kv
    by_cases hh : HoldsMap maps kv.1
    · rw [mapEntries, if_pos hh, plainNames_iff]
      simp [hh]
    · simp [mapEntries, hh]
  simp only [List.mem_flatMap, forall_exists_index, and_imp, ← hone]
  exact ⟨fun h kv hkv e he => h e kv hkv he, fun h e kv hkv he => h kv hkv e he⟩

/-- Maps are extracted as they should be if and only if no struct that holds a map is
defined in a .c file and ".h" occurs in none of the texts of definitions outside headers. -/
theorem maps_extracted_iff (fs : FS) (table : StructTable) (maps : List Str)
    (presDict : PresDict fs) (defineFiles : Finset Str)
    (hscan : ∀ kv ∈ table.items, ∀ d ∈ kv.2, ScanOk fs d.fileName) :
    MapsExtracted table maps ⟨.empty, presDict, defineFiles⟩ ↔
      NoCDefinition maps table.items ∧
        ∀ kv ∈ table.items, HoldsMap maps kv.1 → PlainNames kv.1 kv.2 := by
  have hwrite : ∀ st' : MapsState fs,
      table.items.foldlM (addStruct maps) ⟨.empty, presDict, defineFiles⟩ = .ok st' →
      (writtenEntries (writeMaps st'.opMaps)).Perm
        ((table.items.flatMap (mapEntries maps)).filter fun e => !contains hExt e.text) := by
    intro st' h
    rw [writtenEntries_writeMaps]
    exact ((outer_spec h).2.2).filter _
  have hiff := (written_iff fun e he => (mapEntries_text maps table.items e he).2).trans
    (mapEntries_plain_iff maps table.items)
  rw [sources_mapEntries] at hiff
  constructor
  · intro h
    obtain ⟨st', h, _, hperm, _⟩ := h
    refine ⟨(outer_spec h).2.1, hiff.mp ?_⟩
    exact ((hwrite st' h).map _).symm.trans hperm
  · intro h
    obtain ⟨hc, hplain⟩ := h
    obtain ⟨st', h⟩ := (outer_returns_iff table.items ⟨.empty, presDict, defineFiles⟩).mpr
      ⟨hscan, hc⟩
    refine ⟨st', h, fun f => ?_, ((hwrite st' h).map _).trans (hiff.mpr hplain), fun e he => ?_⟩
    · rw [(outer_spec h).1]
      refine (or_iff_left fun ⟨kv, hkv, hh, d, hd, hf, hfc⟩ => ?_).symm
      rw [← hf, hc kv hkv hh d hd] at hfc
      cases hfc
    · have hm := (hwrite st' h).mem_iff.mp he
      exact (mapEntries_text maps table.items e (List.mem_of_mem_filter hm)).1

def mapFile : FS := filesOf [("a.c".toList, "struct m M ;\n".toList)]

def mapTable : StructTable := ⟨[("struct m M ;".toList, [⟨"a.c".toList, 1, 1⟩])], by decide⟩

def mapNames : List Str := ["M".toList]

theorem mapFile_scanned : ∀ kv ∈ mapTable.items, ∀ d ∈ kv.2, ScanOk mapFile d.fileName := by
  intro kv hkv d hd
  simp only [mapTable, List.mem_singleton] at hkv
  rw [hkv] at hd
  simp only [List.mem_singleton] at hd
  rw [hd]
  exact ⟨[], by decide +kernel⟩

theorem maps_extracted_iff_mapFile :
    MapsExtracted mapTable mapNames ⟨.empty, .empty mapFile, ∅⟩ ↔
      NoCDefinition mapNames mapTable.items ∧
        ∀ kv ∈ mapTable.items, HoldsMap mapNames kv.1 → PlainNames kv.1 kv.2 :=
  maps_extracted_iff mapFile mapTable mapNames (.empty mapFile) ∅ mapFile_scanned

/-- The extraction of the map raises NameError instead of recording a.c. -/
theorem c_map_raises :
    (∀ kv ∈ mapTable.items, ∀ d ∈ kv.2, ScanOk mapFile d.fileName) ∧
      extractMapsFromStructDefs mapTable mapNames ⟨.empty, .empty mapFile, ∅⟩ =
        .error .nameError ∧
      ¬ MapsExtracted mapTable mapNames ⟨.empty, .empty mapFile, ∅⟩ := by
  have herr : extractMapsFromStructDefs mapTable mapNames ⟨.empty, .empty mapFile, ∅⟩ =
      .error .nameError := rfl
  refine ⟨mapFile_scanned, herr, fun ⟨st', h, _⟩ => ?_⟩
  rw [herr] at h
  cases h

end OpenedExtraction.Maps
