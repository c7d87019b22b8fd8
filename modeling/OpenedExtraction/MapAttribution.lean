import OpenedExtraction.Maps

/-! Which entry each definition of a struct gives, and in which list of op_maps it stands. -/
namespace OpenedExtraction.MapAttribution
open OpenedExtraction.PyText OpenedExtraction.ExtractAndDump OpenedExtraction.CallGraph
open OpenedExtraction.FunctionTable OpenedExtraction.Maps

theorem appends_struct (maps : List Str) (struct cur : Str) (ds : List StructDefn) :
    ∀ p ∈ appends maps struct cur ds, p.2.struct = struct := by
  induction ds generalizing cur with
  | nil => simp [appends]
  | cons d ds ih =>
    rw [appends]
    cases doesStructContainMap cur maps with
    | none => simp
    | some k => exact List.forall_mem_cons.mpr ⟨rfl, ih _⟩

theorem filter_structAppends (maps : List Str) {items : List (Str × List StructDefn)}
    (hn : (items.map Prod.fst).Nodup) {kv : Str × List StructDefn} (hkv : kv ∈ items) :
    ((items.flatMap (structAppends maps)).filter fun p => p.2.struct = kv.1) =
      structAppends maps kv := by
  have hother : ∀ items' : List (Str × List StructDefn), kv.1 ∉ items'.map Prod.fst →
      ((items'.flatMap (structAppends maps)).filter fun p => p.2.struct = kv.1) = [] := by
    intro items' hno
    rw [List.filter_eq_nil_iff]
    intro p hp he
    obtain ⟨kv', hkv', hp⟩ := List.mem_flatMap.mp hp
    rw [decide_eq_true_eq, appends_struct maps _ _ _ p hp] at he
    exact hno (he ▸ List.mem_map_of_mem hkv')
  obtain ⟨before, after, rfl⟩ := List.append_of_mem hkv
  rw [List.map_append, List.map_cons, List.nodup_append, List.nodup_cons] at hn
  have hbefore : kv.1 ∉ before.map Prod.fst := fun hm => hn.2.2 _ hm _ (by simp) rfl
  rw [List.flatMap_append, List.flatMap_cons, List.filter_append, List.filter_append,
    hother before hbefore, hother after hn.2.1.1, List.nil_append, List.append_nil,
    List.filter_eq_self]
  intro p hp
  exact decide_eq_true (appends_struct maps _ _ _ p hp)

def InHeaders (table : StructTable) : Prop :=
  ∀ kv ∈ table.items, ∀ d ∈ kv.2, endswith d.fileName hExt = true

def Scanned (fs : FS) (table : StructTable) : Prop :=
  ∀ kv ∈ table.items, ∀ d ∈ kv.2, ScanOk fs d.fileName

def collected (maps : List Str) (table : StructTable) : OrderedDict Str (List MapEntry) :=
  (table.items.flatMap (structAppends maps)).foldl (fun o p => o.appendAt p.1 p.2) .empty

theorem endswith_header {f : Str} (h : endswith f hExt = true) : endswith f cExt = false := by
  rw [Bool.eq_false_iff]
  intro hc
  have h1 := List.isSuffixOf_iff_suffix.mp h
  have h2 := List.isSuffixOf_iff_suffix.mp hc
  have heq := List.suffix_of_suffix_length_le h1 h2 (by decide)
  exact absurd (heq.eq_of_length (by decide)) (by decide)

theorem run_collected {fs : FS} {table : StructTable} {presDict : PresDict fs}
    {defineFiles : Finset Str} {maps : List Str} {st' : MapsState fs}
    (h : extractMapsFromStructDefs table maps ⟨.empty, presDict, defineFiles⟩ = .ok st') :
    st'.opMaps = collected maps table := outer_appends h

theorem run_returns {fs : FS} {table : StructTable} (presDict : PresDict fs)
    (defineFiles : Finset Str) (hscan : Scanned fs table) (hh : InHeaders table)
    (maps : List Str) :
    ∃ st', extractMapsFromStructDefs table maps ⟨.empty, presDict, defineFiles⟩ = .ok st' :=
  (outer_returns_iff table.items _).mpr
    ⟨hscan, fun kv hkv _ d hd => endswith_header (hh kv hkv d hd)⟩

theorem collected_struct (maps : List Str) {table : StructTable} {kv : Str × List StructDefn}
    (hkv : kv ∈ table.items) (m : Str) :
    (((collected maps table).getD m []).filter fun e => e.struct = kv.1) =
      ((structAppends maps kv).filter fun p => p.1 = m).map Prod.snd := by
  rw [collected, OrderedDict.getD_foldl_appendAt, ← filter_structAppends maps table.nodup hkv,
    List.filter_filter]
  simp only [OrderedDict.getD, OrderedDict.get?_empty, Option.getD_none, List.nil_append,
    List.filter_map, List.filter_filter, Function.comp_def, Bool.and_comm]

/-- The entry that a definition should give. -/
def ownEntry (struct : Str) (d : StructDefn) : MapEntry := ⟨struct, d, structHead d ++ struct⟩

/-- The struct has given one entry for each of its definitions, in order, and each of them is the
own entry of its definition. -/
def OwnEntries (opMaps : OrderedDict Str (List MapEntry)) (kv : Str × List StructDefn) : Prop :=
  ∃ keys : List Str, keys.length = kv.2.length ∧ ∀ m,
    ((opMaps.getD m []).filter fun e => e.struct = kv.1) =
      ((keys.zip (kv.2.map (ownEntry kv.1))).filter fun p => p.1 = m).map Prod.snd

theorem ownEntry_ne (struct : Str) (d d' : StructDefn) :
    (⟨struct, d', structHead d' ++ (structHead d ++ struct)⟩ : MapEntry) ≠ ownEntry struct d' := by
  intro he
  have htext := congrArg (fun e => e.text.length) he
  simp only [ownEntry, List.length_append] at htext
  have hhead : ∃ r, structHead d = '/' :: r := ⟨_, rfl⟩
  obtain ⟨r, hr⟩ := hhead
  rw [hr, List.length_cons] at htext
  omega

section Own
variable {maps : List Str} {table : StructTable} {struct : Str} {ds : List StructDefn}

theorem not_ownEntries_of_two {d d' : StructDefn} (hkv : (struct, d :: d' :: ds) ∈ table.items)
    (h : HoldsMap maps struct) :
    ¬ OwnEntries (collected maps table) (struct, d :: d' :: ds) := by
  intro hown
  obtain ⟨keys, _, hlist⟩ := hown
  -- the second entry of the struct is in some list, but is not the own entry of d'
  have he : (appends maps struct struct (d :: d' :: ds)).map Prod.snd =
      entriesFrom struct struct (d :: d' :: ds) := appends_entries h
  simp only [entriesFrom] at he
  obtain ⟨p, hp, hpe⟩ := List.mem_map.mp (show
    (⟨struct, d', structHead d' ++ (structHead d ++ struct)⟩ : MapEntry) ∈
      (appends maps struct struct (d :: d' :: ds)).map Prod.snd by rw [he]; simp)
  have hin : p.2 ∈ ((structAppends maps (struct, d :: d' :: ds)).filter
      fun q => q.1 = p.1).map Prod.snd :=
    List.mem_map_of_mem (List.mem_filter.mpr ⟨hp, by simp⟩)
  rw [← collected_struct maps hkv, hlist p.1] at hin
  obtain ⟨q, hq, hqe⟩ := List.mem_map.mp hin
  obtain ⟨x, _, hx⟩ := List.mem_map.mp (List.of_mem_zip (List.mem_of_mem_filter hq)).2
  have hxe : ownEntry struct x =
      ⟨struct, d', structHead d' ++ (structHead d ++ struct)⟩ := hx.trans (hqe.trans hpe)
  have hd : x = d' := congrArg MapEntry.defn hxe
  rw [hd] at hxe
  exact ownEntry_ne struct d d' hxe.symm

theorem ownEntries_of_one {d : StructDefn} (hkv : (struct, [d]) ∈ table.items)
    (h : HoldsMap maps struct) : OwnEntries (collected maps table) (struct, [d]) := by
  cases hm : doesStructContainMap struct maps with
  | none => exact absurd h ((doesStructContainMap_eq_none maps struct).mp hm)
  | some k =>
    refine ⟨[k], rfl, fun m => ?_⟩
    rw [collected_struct maps hkv, structAppends, appends, hm]
    rfl

theorem ownEntries_iff (hkv : (struct, ds) ∈ table.items) (h : HoldsMap maps struct) :
    OwnEntries (collected maps table) (struct, ds) ↔ ds.length ≤ 1 := by
  cases ds with
  | nil =>
    refine iff_of_true ⟨[], rfl, fun m => ?_⟩ (Nat.zero_le 1)
    rw [collected_struct maps hkv]
    rfl
  | cons d ds =>
    cases ds with
    | nil => exact iff_of_true (ownEntries_of_one hkv h) (Nat.le_refl 1)
    | cons d' ds =>
      refine iff_of_false (not_ownEntries_of_two hkv h) ?_
      simp only [List.length_cons]
      omega

end Own

/-- For every table of definitions in headers: the run returns and every struct with a map name
gives the own entries of its definitions if and only if all files can be scanned and no such struct
has two definitions. -/
theorem own_locations_iff (fs : FS) (table : StructTable) (maps : List Str)
    (presDict : PresDict fs) (defineFiles : Finset Str) (hh : InHeaders table) :
    (∃ st', extractMapsFromStructDefs table maps ⟨.empty, presDict, defineFiles⟩ = .ok st' ∧
        ∀ kv ∈ table.items, HoldsMap maps kv.1 → OwnEntries st'.opMaps kv) ↔
      Scanned fs table ∧ ∀ kv ∈ table.items, HoldsMap maps kv.1 → kv.2.length ≤ 1 := by
  constructor
  · intro hrun
    obtain ⟨st', h, hown⟩ := hrun
    rw [run_collected h] at hown
    exact ⟨((outer_returns_iff table.items _).mp ⟨st', h⟩).1, fun kv hkv hm => (ownEntries_iff hkv hm).mp (hown kv hkv hm)⟩
  · intro hcond
    obtain ⟨hscan, hone⟩ := hcond
    obtain ⟨st', h⟩ := run_returns presDict defineFiles hscan hh maps
    refine ⟨st', h, fun kv hkv hm => ?_⟩
    rw [run_collected h]
    exact (ownEntries_iff hkv hm).mpr (hone kv hkv hm)

def mapHeaders : FS :=
  filesOf [("a.h".toList, "struct m M ;\n".toList), ("b.h".toList, "struct m M ;\n".toList),
    ("c.h".toList, "struct m M N ;\n".toList)]

def inA : StructDefn := ⟨"a.h".toList, 1, 1⟩

def inB : StructDefn := ⟨"b.h".toList, 1, 1⟩

def inC : StructDefn := ⟨"c.h".toList, 1, 1⟩

def structTable (struct : Str) (ds : List StructDefn) : StructTable :=
  ⟨[(struct, ds)], List.nodup_singleton _⟩

theorem mapHeaders_ok {table : StructTable} (h : ∀ kv ∈ table.items, kv.2 ⊆ [inA, inB, inC]) :
    Scanned mapHeaders table ∧ InHeaders table := by
  have hall : ∀ d ∈ [inA, inB, inC],
      ScanOk mapHeaders d.fileName ∧ endswith d.fileName hExt = true := by
    simp only [List.forall_mem_cons, List.not_mem_nil, false_implies, implies_true, and_true]
    exact ⟨⟨⟨[], by decide +kernel⟩, by decide +kernel⟩, ⟨⟨[], by decide +kernel⟩, by decide +kernel⟩,
      ⟨[], by decide +kernel⟩, by decide +kernel⟩
  exact ⟨fun kv hkv d hd => (hall d (h kv hkv hd)).1, fun kv hkv d hd => (hall d (h kv hkv hd)).2⟩

def mText : Str := "struct m M ;".toList

def nText : Str := "struct n N ;".toList

def twoNames : List Str := ["M".toList, "N".toList]

def twoStructs (ds : List StructDefn) : StructTable :=
  ⟨[(mText, ds), (nText, [inC])], show [mText, nText].Nodup by decide⟩

theorem own_locations_iff_two :
    (∃ st', extractMapsFromStructDefs (twoStructs [inA]) twoNames
          ⟨.empty, .empty mapHeaders, ∅⟩ = .ok st' ∧
        ∀ kv ∈ (twoStructs [inA]).items, HoldsMap twoNames kv.1 → OwnEntries st'.opMaps kv) ↔
      Scanned mapHeaders (twoStructs [inA]) ∧
        ∀ kv ∈ (twoStructs [inA]).items, HoldsMap twoNames kv.1 → kv.2.length ≤ 1 :=
  own_locations_iff mapHeaders (twoStructs [inA]) twoNames (.empty mapHeaders) ∅
    (mapHeaders_ok (by decide)).2

/-- The entry of the definition in b.h starts with the location in b.h and the one in a.h. -/
theorem second_entry_has_two_locations :
    InHeaders (structTable mText [inA, inB]) ∧
      Scanned mapHeaders (structTable mText [inA, inB]) ∧ HoldsMap mapNames mText ∧
      ∃ st', extractMapsFromStructDefs (structTable mText [inA, inB]) mapNames
          ⟨.empty, .empty mapHeaders, ∅⟩ = .ok st' ∧
        st'.opMaps.getD "M".toList [] = [⟨mText, inA, structHead inA ++ mText⟩,
          ⟨mText, inB, structHead inB ++ (structHead inA ++ mText)⟩] ∧
        ¬ OwnEntries st'.opMaps (mText, [inA, inB]) := by
  have hok := @mapHeaders_ok (structTable mText [inA, inB]) (by decide)
  have hm : HoldsMap mapNames mText := by decide +kernel
  obtain ⟨st', h⟩ := run_returns (.empty mapHeaders) ∅ hok.1 hok.2 mapNames
  refine ⟨hok.2, hok.1, hm, st', h, ?_, ?_⟩
  · rw [run_collected h]
    rfl
  · rw [run_collected h, ownEntries_iff (List.mem_singleton_self _) hm]
    decide

/-- The list of each map name among the tokens of a struct holds one entry for each of its
definitions. -/
def Attributed (maps : List Str) (table : StructTable)
    (opMaps : OrderedDict Str (List MapEntry)) : Prop :=
  ∀ m ∈ maps, ∀ kv ∈ table.items, m ∈ split kv.1 →
    ((opMaps.getD m []).filter fun e => e.struct = kv.1).map MapEntry.defn = kv.2

/-- No map name but m is a token of the struct or of the location of a definition before the
last one. -/
def OnlyName (maps : List Str) (kv : Str × List StructDefn) (m : Str) : Prop :=
  (∀ k ∈ maps, k ∈ split kv.1 → k = m) ∧
    ∀ d ∈ kv.2.dropLast, ∀ k ∈ maps, k ∈ split (structHead d) → k = m

theorem split_structHead (d : StructDefn) (s : Str) :
    split (structHead d ++ s) = split (structHead d) ++ split s := by
  have hhead := structHead_append d []
  rw [List.append_nil] at hhead
  have hnil : split ([] : Str) = [] := rfl
  rw [structHead_append, hhead, split_append _ _ _ (by decide), split_append _ _ _ (by decide),
    hnil, List.append_nil]

theorem defns_entriesFrom (struct cur : Str) (ds : List StructDefn) :
    (entriesFrom struct cur ds).map MapEntry.defn = ds := by
  induction ds generalizing cur with
  | nil => rfl
  | cons d ds ih => rw [entriesFrom, List.map_cons, ih]

section Names
variable {maps rest : List Str} {table : StructTable} {kv : Str × List StructDefn} {k m : Str}

theorem doesStructContainMap_only {cur : Str} (hm : m ∈ maps) (hs : m ∈ split cur)
    (honly : ∀ k ∈ maps, k ∈ split cur → k = m) : doesStructContainMap cur maps = some m := by
  cases hf : doesStructContainMap cur maps with
  | none => exact absurd ⟨m, hm, hs⟩ ((doesStructContainMap_eq_none maps cur).mp hf)
  | some k =>
    have hk : k ∈ split cur := by simpa using List.find?_some hf
    rw [honly k (List.mem_of_find?_eq_some hf) hk]

theorem appends_only (struct : Str) {cur : Str} {ds : List StructDefn} (hm : m ∈ maps)
    (hs : m ∈ split cur) (honly : OnlyName maps (cur, ds) m) :
    appends maps struct cur ds = (entriesFrom struct cur ds).map fun e => (m, e) := by
  induction ds generalizing cur with
  | nil => rfl
  | cons d ds ih =>
    rw [appends, doesStructContainMap_only hm hs honly.1, entriesFrom, List.map_cons]
    cases ds with
    | nil => rfl
    | cons d' ds =>
      have hlast : (d :: d' :: ds).dropLast = d :: (d' :: ds).dropLast := rfl
      have hds := honly.2
      rw [hlast] at hds
      have htoken : ∀ k ∈ maps, k ∈ split (structHead d ++ cur) → k = m := by
        intro k hk hsk
        rw [split_structHead, List.mem_append] at hsk
        cases hsk with
        | inl hd => exact hds d (by simp) k hk hd
        | inr hcur => exact honly.1 k hk hcur
      have hnext : m ∈ split (structHead d ++ cur) := by
        rw [split_structHead]
        exact List.mem_append_right _ hs
      simp only
      rw [ih hnext ⟨htoken, fun d'' hd'' => hds d'' (List.mem_cons_of_mem d hd'')⟩]

theorem appends_first (struct : Str) {cur : Str} {ds : List StructDefn} (hds : ds ≠ [])
    (hk : k ∈ split cur) : ∃ e, (k, e) ∈ appends (k :: rest) struct cur ds := by
  cases ds with
  | nil => exact absurd rfl hds
  | cons d ds =>
    have hf : doesStructContainMap cur (k :: rest) = some k := by
      rw [doesStructContainMap, List.find?_cons_of_pos (by simpa using hk)]
    rw [appends, hf]
    exact ⟨_, List.mem_cons_self⟩

theorem appends_first_head (struct : Str) {cur : Str} {ds : List StructDefn} {d : StructDefn}
    (hcur : HoldsMap (k :: rest) cur) (hd : d ∈ ds.dropLast) (hk : k ∈ split (structHead d)) :
    ∃ e, (k, e) ∈ appends (k :: rest) struct cur ds := by
  induction ds generalizing cur with
  | nil => simp at hd
  | cons d₁ ds ih =>
    cases ds with
    | nil => simp at hd
    | cons d₂ ds =>
      have hnext : ∃ e, (k, e) ∈ appends (k :: rest) struct (structHead d₁ ++ cur) (d₂ :: ds) := by
        rw [List.dropLast_cons_cons, List.mem_cons] at hd
        cases hd with
        | inl he =>
          refine appends_first struct (by simp) ?_
          rw [split_structHead, ← he]
          exact List.mem_append_left _ hk
        | inr hin => exact ih (hcur.head d₁) hin
      cases hf : doesStructContainMap cur (k :: rest) with
      | none => exact absurd hcur ((doesStructContainMap_eq_none _ cur).mp hf)
      | some k' =>
        obtain ⟨e, he⟩ := hnext
        rw [appends, hf]
        exact ⟨e, List.mem_cons_of_mem _ he⟩

theorem attributed_iff_keys (hkv : kv ∈ table.items) (hm : m ∈ maps) (hs : m ∈ split kv.1) :
    (((collected maps table).getD m []).filter fun e => e.struct = kv.1).map MapEntry.defn = kv.2 ↔
      ∀ p ∈ structAppends maps kv, p.1 = m := by
  have hentries : (structAppends maps kv).map Prod.snd = entriesFrom kv.1 kv.1 kv.2 :=
    appends_entries ⟨m, hm, hs⟩
  have hdefns : ((structAppends maps kv).map Prod.snd).map MapEntry.defn = kv.2 := by
    rw [hentries, defns_entriesFrom]
  rw [collected_struct maps hkv]
  constructor
  · intro h
    have hlen := congrArg List.length (h.trans hdefns.symm)
    simp only [List.length_map] at hlen
    intro p hp
    exact of_decide_eq_true (List.length_filter_eq_length_iff.mp hlen p hp)
  · intro h
    rw [List.filter_eq_self.mpr fun p hp => decide_eq_true (h p hp), hdefns]

theorem structAppends_perm {maps' : List Str} (hp : maps'.Perm maps)
    (hone : kv.2 ≠ [] → ∀ m ∈ maps, m ∈ split kv.1 → OnlyName maps kv m) :
    structAppends maps' kv = structAppends maps kv := by
  have hmem : ∀ k, k ∈ maps' ↔ k ∈ maps := fun k => hp.mem_iff
  obtain ⟨struct, ds⟩ := kv
  by_cases hds : ds = []
  · rw [hds]
    rfl
  by_cases hh : HoldsMap maps struct
  · obtain ⟨m, hm, hs⟩ := hh
    have honly := hone hds m hm hs
    have honly' : OnlyName maps' (struct, ds) m :=
      ⟨fun k hk => honly.1 k ((hmem k).mp hk), fun d hd k hk => honly.2 d hd k ((hmem k).mp hk)⟩
    rw [structAppends, structAppends, appends_only struct hm hs honly,
      appends_only struct ((hmem m).mpr hm) hs honly']
  · have hh' : ¬ HoldsMap maps' struct := by
      intro h
      obtain ⟨k, hk, hs⟩ := h
      exact hh ⟨k, (hmem k).mp hk, hs⟩
    rw [structAppends, structAppends, appends_of_not_holds hh, appends_of_not_holds hh']

end Names

/-- For every table of definitions in headers: the run returns, all map names of a struct get its
definitions, and the lists do not depend on the order of the names, if and only if all files can be
scanned and no struct with a definition comes with two map names. -/
theorem attribution_iff (fs : FS) (table : StructTable) (maps : List Str)
    (presDict : PresDict fs) (defineFiles : Finset Str) (hh : InHeaders table) :
    (∃ st', extractMapsFromStructDefs table maps ⟨.empty, presDict, defineFiles⟩ = .ok st' ∧
        Attributed maps table st'.opMaps ∧ ∀ maps' : List Str, maps'.Perm maps →
          ∃ st'', extractMapsFromStructDefs table maps' ⟨.empty, presDict, defineFiles⟩ =
              .ok st'' ∧ ∀ m, st''.opMaps.getD m [] = st'.opMaps.getD m []) ↔
      Scanned fs table ∧
        ∀ kv ∈ table.items, kv.2 ≠ [] → ∀ m ∈ maps, m ∈ split kv.1 → OnlyName maps kv m := by
  constructor
  · intro hrun
    obtain ⟨st', h, hattr, hperm⟩ := hrun
    refine ⟨((outer_returns_iff table.items _).mp ⟨st', h⟩).1, fun kv hkv hds m hm hs => ?_⟩
    rw [run_collected h] at hattr hperm
    -- with k as the first name, the list of m still has to hold every definition
    have hkeys : ∀ k ∈ maps, ∀ p ∈ structAppends (k :: maps.erase k) kv, p.1 = m := by
      intro k hk
      have hp : (k :: maps.erase k).Perm maps := (List.perm_cons_erase hk).symm
      obtain ⟨st'', h'', hsame⟩ := hperm _ hp
      rw [run_collected h''] at hsame
      refine (attributed_iff_keys hkv (hp.mem_iff.mpr hm) hs).mp ?_
      rw [hsame]
      exact hattr m hm kv hkv hs
    refine ⟨fun k hk hks => ?_, fun d hd k hk hkd => ?_⟩
    · obtain ⟨e, he⟩ := appends_first kv.1 hds hks
      exact hkeys k hk (k, e) he
    · have hcur : HoldsMap (k :: maps.erase k) kv.1 :=
        ⟨m, (List.perm_cons_erase hk).mem_iff.mp hm, hs⟩
      obtain ⟨e, he⟩ := appends_first_head kv.1 hcur hd hkd
      exact hkeys k hk (k, e) he
  · intro hcond
    obtain ⟨hscan, hone⟩ := hcond
    have hrun := run_returns presDict defineFiles hscan hh
    obtain ⟨st', h⟩ := hrun maps
    refine ⟨st', h, fun m hm kv hkv hs => ?_, fun maps' hp => ?_⟩
    · rw [run_collected h, attributed_iff_keys hkv hm hs]
      intro p hpm
      have hds : kv.2 ≠ [] := by
        intro hnil
        rw [structAppends, hnil] at hpm
        simp [appends] at hpm
      rw [structAppends, appends_only kv.1 hm hs (hone kv hkv hds m hm hs)] at hpm
      obtain ⟨e, _, he⟩ := List.mem_map.mp hpm
      rw [← he]
    · obtain ⟨st'', h''⟩ := hrun maps'
      refine ⟨st'', h'', fun m => ?_⟩
      rw [run_collected h, run_collected h'', collected, collected,
        List.flatMap_congr fun kv hkv => structAppends_perm hp (hone kv hkv)]

def mnText : Str := "struct m M N ;".toList

theorem attribution_iff_two :
    (∃ st', extractMapsFromStructDefs (twoStructs [inA, inB]) twoNames
          ⟨.empty, .empty mapHeaders, ∅⟩ = .ok st' ∧
        Attributed twoNames (twoStructs [inA, inB]) st'.opMaps ∧
        ∀ maps' : List Str, maps'.Perm twoNames →
          ∃ st'', extractMapsFromStructDefs (twoStructs [inA, inB]) maps'
              ⟨.empty, .empty mapHeaders, ∅⟩ = .ok st'' ∧
            ∀ m, st''.opMaps.getD m [] = st'.opMaps.getD m []) ↔
      Scanned mapHeaders (twoStructs [inA, inB]) ∧
        ∀ kv ∈ (twoStructs [inA, inB]).items, kv.2 ≠ [] → ∀ m ∈ twoNames, m ∈ split kv.1 →
          OnlyName twoNames kv m :=
  attribution_iff mapHeaders (twoStructs [inA, inB]) twoNames (.empty mapHeaders) ∅
    (mapHeaders_ok (by decide)).2

/-- N is a token of the struct, but only the list of M gets its definition; with the names in the
other order it is the list of N. -/
theorem first_name_takes_all :
    InHeaders (structTable mnText [inC]) ∧ Scanned mapHeaders (structTable mnText [inC]) ∧
      "N".toList ∈ twoNames ∧ "N".toList ∈ split mnText ∧
      (∃ st', extractMapsFromStructDefs (structTable mnText [inC]) twoNames
          ⟨.empty, .empty mapHeaders, ∅⟩ = .ok st' ∧
        st'.opMaps.getD "N".toList [] = [] ∧
        ¬ Attributed twoNames (structTable mnText [inC]) st'.opMaps) ∧
      ∃ st'', extractMapsFromStructDefs (structTable mnText [inC]) twoNames.reverse
          ⟨.empty, .empty mapHeaders, ∅⟩ = .ok st'' ∧
        st''.opMaps.getD "N".toList [] = [⟨mnText, inC, structHead inC ++ mnText⟩] := by
  have hok := @mapHeaders_ok (structTable mnText [inC]) (by decide)
  have hrun := run_returns (.empty mapHeaders) ∅ hok.1 hok.2
  obtain ⟨st', h⟩ := hrun twoNames
  obtain ⟨st'', h''⟩ := hrun twoNames.reverse
  have hn : "N".toList ∈ twoNames := by decide +kernel
  have hs : "N".toList ∈ split mnText := by decide +kernel
  have hempty : (collected twoNames (structTable mnText [inC])).getD "N".toList [] = [] := rfl
  refine ⟨hok.2, hok.1, hn, hs, ⟨st', h, ?_, fun hattr => ?_⟩, st'', h'', ?_⟩
  · rw [run_collected h, hempty]
  · have hlist := hattr _ hn (mnText, [inC]) (List.mem_singleton_self _) hs
    rw [run_collected h, hempty] at hlist
    cases hlist
  · rw [run_collected h'']
    rfl

end OpenedExtraction.MapAttribution
