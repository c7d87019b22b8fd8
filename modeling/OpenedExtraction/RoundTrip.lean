import OpenedExtraction.ExtractAndDump

/-! The text written by dumpFns read by the scanner of the program itself. -/
namespace OpenedExtraction.RoundTrip
open OpenedExtraction.PyText OpenedExtraction.Nesting OpenedExtraction.PreprocessorMap
open OpenedExtraction.ExtractAndDump

def commentLines (iFile : Str) (startLine endLine : Int) : List Str :=
  ["/* Extracted from \n".toList, ' ' :: (iFile ++ " \n".toList),
    ' ' :: ("startLine: ".toList ++ str startLine ++ " endLine: ".toList ++ str endLine ++
      "\n".toList), " */ \n".toList]

theorem flatten_commentLines (iFile : Str) (s e : Int) :
    (commentLines iFile s e).flatten = locationComment iFile s e := by
  have hcut : ∀ a a' b b' c c' x m d : Str, a' = a ++ [' '] → b' = b ++ ' ' :: d →
      c' = c ++ m → ∀ f, [a, ' ' :: (f ++ b), ' ' :: (d ++ str s ++ x ++ str e ++ c), m].flatten =
        a' ++ f ++ b' ++ str s ++ x ++ str e ++ c' := by
    intro a a' b b' c c' x m d ha hb hc f
    simp [ha, hb, hc]
  exact hcut _ _ _ _ _ _ _ _ _ (by decide +kernel) (by decide +kernel) (by decide +kernel) iFile

theorem commentLines_isLine {iFile : Str} (h : '\n' ∉ iFile) (s e : Int) :
    ∀ l ∈ commentLines iFile s e, IsLine l := by
  have hd : ∀ n : Int, '\n' ∉ str n := fun n => not_mem_str n '\n' (by decide) (by decide)
  intro l hl
  simp only [commentLines, List.mem_cons, List.not_mem_nil, or_false] at hl
  obtain rfl | rfl | rfl | rfl := hl
  · exact ⟨"/* Extracted from ".toList, rfl, by decide⟩
  · exact ⟨' ' :: (iFile ++ " ".toList), by simp, by simp [h]⟩
  · exact ⟨' ' :: ("startLine: ".toList ++ str s ++ " endLine: ".toList ++ str e), by simp,
      by simp [hd]⟩
  · exact ⟨" */ ".toList, rfl, by decide⟩

theorem plain_of_head {c : Char} (cs : Str) (h : c ≠ '#') :
    roleOf (c :: cs) = .plain ∧ readsName (c :: cs) = false := by
  apply roleOf_plain
  have hd : ∀ p ∈ directiveTexts, p.head? = some '#' := by decide
  intro p hp hpre
  cases p with
  | nil => simpa using hd [] hp
  | cons x xs =>
    have hx := hd (x :: xs) hp
    rw [List.cons_prefix_cons] at hpre
    simp only [List.head?_cons, Option.some.injEq] at hx
    exact h (hpre.1.symm.trans hx)

theorem commentLines_plain (iFile : Str) (s e : Int) :
    ∀ l ∈ commentLines iFile s e, roleOf l = .plain ∧ readsName l = false := by
  intro l hl
  simp only [commentLines, List.mem_cons, List.not_mem_nil, or_false] at hl
  obtain rfl | rfl | rfl | rfl := hl
  · exact plain_of_head (c := '/') _ (by decide)
  · exact plain_of_head (c := ' ') _ (by decide)
  · exact plain_of_head (c := ' ') _ (by decide)
  · exact plain_of_head (c := ' ') _ (by decide)

def blockLines (val : Option Guard) (iFile : Str) (startLine endLine : Int)
    (lines : List Str) : List Str :=
  (val.map guardLine).toList ++ ((commentLines iFile startLine endLine ++
    sourceLines lines startLine endLine) ++ (val.map fun _ => endGuard).toList)

theorem flatten_blockLines (val : Option Guard) (iFile : Str) (s e : Int) (lines : List Str) :
    (blockLines val iFile s e lines).flatten = blockText val iFile s e lines := by
  cases val <;> simp [blockLines, blockText, flatten_commentLines]

theorem roleOf_guardLine {g : Guard} (h : IsToken g.2) :
    roleOf (guardLine g) = .opener g ∧ Named (guardLine g) := by
  have hp : g.1.text <+: guardLine g := ⟨" ".toList ++ g.2 ++ "\n".toList, by simp [guardLine]⟩
  have hn : nameOf (guardLine g) = g.2 := by simp [nameOf, split_guardLine h]
  refine ⟨by rw [(roleOf_opener hp).1, hn], fun _ => ?_⟩
  simp [split_guardLine h]

theorem roleOf_endGuard : roleOf endGuard = .closer ∧ readsName endGuard = false :=
  roleOf_endif ⟨"\n".toList, by decide +kernel⟩

/-- The copied lines, wrapped in the guard, with the comment as plain lines before them. -/
theorem roles_blockLines {val : Option Guard} (hv : ∀ g ∈ val, IsToken g.2) (iFile : Str)
    (s e : Int) (lines : List Str) :
    (blockLines val iFile s e lines).map roleOf =
      wrap val ((commentLines iFile s e).map roleOf ++
        (sourceLines lines s e).map roleOf) := by
  cases val with
  | none => simp [blockLines, wrap]
  | some g => simp [blockLines, wrap, (roleOf_guardLine (hv g rfl)).1, roleOf_endGuard.1]

theorem commentLines_free {iFile : Str} (h : '\r' ∉ iFile) (s e : Int) :
    ∀ l ∈ commentLines iFile s e, '\r' ∉ l := by
  have hd : ∀ n : Int, '\r' ∉ str n := fun n => not_mem_str n '\r' (by decide) (by decide)
  intro l hl
  simp only [commentLines, List.mem_cons, List.not_mem_nil, or_false] at hl
  obtain rfl | rfl | rfl | rfl := hl
  · decide
  · simp [h]
  · simp [hd]
  · decide

theorem guardLine_free {g : Guard} (h : IsToken g.2) : '\r' ∉ guardLine g := by
  have hn : '\r' ∉ g.2 := fun hm => absurd (h.2 '\r' hm) (by decide)
  have ht : '\r' ∉ g.1.text := by cases g.1 <;> decide
  simp [guardLine, ht, hn]

/-- Lines that come back from a text file as they were written and that the scanner can
read. -/
def Readable (l : Str) : Prop := IsLine l ∧ '\r' ∉ l ∧ Named l

theorem readable_blockLines {val : Option Guard} (hv : ∀ g ∈ val, IsToken g.2) {iFile : Str}
    (hn : '\n' ∉ iFile) (hr : '\r' ∉ iFile) (s e : Int) {lines : List Str}
    (hl : ∀ l ∈ lines, Readable l) : ∀ l ∈ blockLines val iFile s e lines, Readable l := by
  have hsub : ∀ l ∈ sourceLines lines s e, Readable l := fun l hm =>
    hl l (List.mem_of_mem_drop (List.mem_of_mem_take hm))
  have hcom : ∀ l ∈ commentLines iFile s e, Readable l := fun l hm =>
    ⟨commentLines_isLine hn s e l hm, commentLines_free hr s e l hm,
      fun hread => by simp [(commentLines_plain iFile s e l hm).2] at hread⟩
  have hend : Readable endGuard := ⟨⟨"#endif ".toList, rfl, by decide⟩, by decide,
    fun hread => by simp [roleOf_endGuard.2] at hread⟩
  intro l hm
  simp only [blockLines, List.mem_append, Option.mem_toList,
    Option.map_eq_some_iff] at hm
  obtain ⟨g, hg, rfl⟩ | (hm | hm) | ⟨g, _, rfl⟩ := hm
  · have ht := hv g hg
    exact ⟨guardLine_isLine ht, guardLine_free ht, (roleOf_guardLine ht).2⟩
  · exact hcom l hm
  · exact hsub l hm
  · exact hend

theorem length_sourceLines {lines : List Str} {s e : Int} (h1 : 1 ≤ s) (hse : s ≤ e)
    (he : e ≤ lines.length) : ((sourceLines lines s e).length : Int) = e - s + 1 := by
  simp only [sourceLines, List.length_take, List.length_drop]
  omega

/-- The lookup in the map of a text finds, for the copied lines of a block that stands
between balanced parts, the guard of that block. -/
theorem lookup_block {before after cs rs : List (Role Guard)} (val : Option Guard)
    (hb : Balanced (before.map Role.shape)) (ha : Balanced (after.map Role.shape))
    (hc : ∀ r ∈ cs, r = .plain) (hr : Balanced (rs.map Role.shape)) :
    ∃ pres, scan 1 [] (before ++ (wrap val (cs ++ rs) ++ after)) = some (pres, []) ∧
      ∀ a b : Int, a = before.length + val.toList.length + cs.length + 1 →
        b = a + rs.length - 1 → a ≤ b → pickedGuard pres a b = val := by
  obtain ⟨ga, gb, gc, hs, hgb, hga, hgc⟩ := scan_between before (wrap val (cs ++ rs)) after hb
    (balanced_wrap val cs rs hc hr) ha
  obtain ⟨gs, hgs, hin⟩ := scan_wrap (1 + before.length) (by omega) val cs rs hc hr
  have hlen : (wrap val (cs ++ rs)).length = 2 * val.toList.length + cs.length + rs.length := by
    cases val with
    | none => simp [wrap]
    | some g =>
      simp [wrap]
      omega
  have he := (hgb []).symm.trans (hgs [])
  simp only [Option.some.injEq, Prod.mk.injEq, and_true] at he
  refine ⟨_, hs, fun a b ha hb hab => ?_⟩
  have hna : containedInPreprocessor ga a b = none := by
    rw [contained_none_iff]
    intro g hg hcon
    have h1 := hga g hg
    have h2 := hcon.2
    omega
  have hns : containedInPreprocessor gs a b = none := by
    rw [contained_none_iff]
    intro g hg hcon
    have h1 := hin g hg
    have h2 := hcon.2
    omega
  have hnc : containedInPreprocessor gc a b = none := by
    rw [contained_none_iff]
    intro g hg hcon
    have h1 := hgc g hg
    have h2 := hcon.1
    omega
  simp only [containedInPreprocessor] at hna hns hnc
  rw [pickedGuard, containedInPreprocessor, he, List.find?_append, List.find?_append,
    List.find?_append, hna, hns, hnc]
  cases val with
  | none => simp
  | some g =>
    have hfirst : ((1 + before.length : Nat) : Int) ≤ a := by simp at ha; omega
    have hlast : b ≤ ((1 + before.length + cs.length + rs.length : Nat) : Int) := by
      simp at ha
      omega
    simp only [Option.map_some, Option.toList_some, List.find?_cons, hfirst, hlast]
    simp

def fileLines (fs : FS) (f : Str) : List Str :=
  match fs f with
  | .text t => readlines (universalNewlines t)
  | _ => []

/-- A definition in a scanned file that ends in a newline, with a range inside the file
whose directives are balanced by themselves. -/
structure Extractable {fs : FS} (presDict : PresDict fs) (d : Defn) : Prop where
  scanned : d.srcFile ∈ presDict.dict.keys
  newline : ∃ t, fs d.srcFile = .text t ∧ EndsLine (universalNewlines t)
  first : 1 ≤ d.startLine
  ordered : d.startLine ≤ d.endLine
  last : d.endLine ≤ (fileLines fs d.srcFile).length
  balanced : Balanced ((sourceLines (fileLines fs d.srcFile) d.startLine d.endLine).map shapeOf)
  oneLine : '\n' ∉ d.srcFile ∧ '\r' ∉ d.srcFile

def sourceGuard {fs : FS} (presDict : PresDict fs) (d : Defn) : Option Guard :=
  pickedGuard (presDict.lookup d.srcFile) d.startLine d.endLine

def blockHead (val : Option Guard) (d : Defn) : Str :=
  (val.map guardLine).getD [] ++ locationComment d.srcFile d.startLine d.endLine

/-- The number of the first copied line of a block in the output. -/
def copiedFrom (earlier : List Dumped) (head : Str) : Nat :=
  (readlines (dumpText earlier ++ head)).length + 1

def defnLines {fs : FS} (presDict : PresDict fs) (d : Defn) : List Str :=
  blockLines (sourceGuard presDict d) d.srcFile d.startLine d.endLine (fileLines fs d.srcFile)

section Extractable
variable {fs : FS} {presDict : PresDict fs} {d : Defn}

theorem Extractable.lines (h : Extractable presDict d) :
    createPreprocessorMap (fileLines fs d.srcFile) = .ok (presDict.lookup d.srcFile) ∧
      ∀ l ∈ fileLines fs d.srcFile, Readable l := by
  obtain ⟨t, ht, hmap⟩ := presDict.text_of_mem h.scanned
  obtain ⟨t', ht', hends⟩ := h.newline
  rw [ht, Node.text.injEq] at ht'
  have hl : fileLines fs d.srcFile = readlines (universalNewlines t) := by simp [fileLines, ht]
  rw [hl]
  refine ⟨hmap, fun l hm => ⟨?_, ?_, ?_⟩⟩
  · rw [← ht'] at hends
    exact readlines_isLine _ hends l hm
  · intro hc
    apply universalNewlines_free t
    rw [← flatten_readlines (universalNewlines t)]
    exact List.mem_flatten.mpr ⟨l, hm, hc⟩
  · exact ((createPreprocessorMap_ok_iff _ _).mp hmap).1 l hm

theorem Extractable.guard_token (h : Extractable presDict d) :
    ∀ g ∈ sourceGuard presDict d, IsToken g.2 := by
  intro g hg
  obtain ⟨r, hr, rfl⟩ := Option.map_eq_some_iff.mp hg
  exact region_token h.lines.1 r (List.mem_of_find?_eq_some hr)

theorem Extractable.readable (h : Extractable presDict d) :
    ∀ l ∈ defnLines presDict d, Readable l :=
  readable_blockLines h.guard_token h.oneLine.1 h.oneLine.2 _ _ h.lines.2

theorem Extractable.flatten_lines (h : Extractable presDict d) :
    (defnLines presDict d).flatten = definitionBlock presDict d := by
  obtain ⟨t, ht, _⟩ := h.newline
  rw [defnLines, flatten_blockLines]
  simp [definitionBlock, fileLines, sourceGuard, ht]

theorem Extractable.roles (h : Extractable presDict d) :
    (defnLines presDict d).map roleOf =
      wrap (sourceGuard presDict d)
        ((commentLines d.srcFile d.startLine d.endLine).map roleOf ++
          (sourceLines (fileLines fs d.srcFile) d.startLine d.endLine).map roleOf) :=
  roles_blockLines h.guard_token _ _ _ _

theorem commentRoles_plain (iFile : Str) (s e : Int) :
    ∀ r ∈ (commentLines iFile s e).map roleOf, r = .plain := by
  intro r hr
  obtain ⟨l, hl, rfl⟩ := List.mem_map.mp hr
  exact (commentLines_plain iFile s e l hl).1

theorem Extractable.balanced_roles (h : Extractable presDict d) :
    Balanced (((sourceLines (fileLines fs d.srcFile) d.startLine d.endLine).map roleOf).map
      Role.shape) := by
  rw [List.map_map]
  exact h.balanced

theorem Extractable.balanced_lines (h : Extractable presDict d) :
    Balanced (((defnLines presDict d).map roleOf).map Role.shape) := by
  rw [h.roles]
  exact balanced_wrap _ _ _ (commentRoles_plain _ _ _) h.balanced_roles

end Extractable

section Output
variable {fs : FS} (presDict : PresDict fs)

def dumped (ds : List Defn) : List Dumped :=
  ds.map fun d => ⟨d, entryLine d, definitionBlock presDict d⟩

def outputLines (ds : List Defn) : List Str := (ds.map (defnLines presDict)).flatten

variable {presDict} {ds : List Defn}

theorem flatten_outputLines (h : ∀ d ∈ ds, Extractable presDict d) :
    (outputLines presDict ds).flatten = dumpText (dumped presDict ds) := by
  induction ds with
  | nil => rfl
  | cons d ds ih =>
    have ht := ih fun x hx => h x (by simp [hx])
    have hd := (h d (by simp)).flatten_lines
    simp only [outputLines, dumpText, dumped] at ht
    simp [outputLines, dumpText, dumped, hd, ht]

theorem readable_outputLines (h : ∀ d ∈ ds, Extractable presDict d) :
    ∀ l ∈ outputLines presDict ds, Readable l := by
  intro l hl
  obtain ⟨ls, hls, hm⟩ := List.mem_flatten.mp hl
  obtain ⟨d, hd, rfl⟩ := List.mem_map.mp hls
  exact (h d hd).readable l hm

theorem readlines_dumped (h : ∀ d ∈ ds, Extractable presDict d) (rest : Str) :
    readlines (dumpText (dumped presDict ds) ++ rest) =
      outputLines presDict ds ++ readlines rest := by
  rw [← flatten_outputLines h]
  exact readlines_lines_append _ rest fun l hl => (readable_outputLines h l hl).1

theorem universalNewlines_dumped (h : ∀ d ∈ ds, Extractable presDict d) :
    universalNewlines (dumpText (dumped presDict ds)) = dumpText (dumped presDict ds) := by
  apply universalNewlines_eq
  rw [← flatten_outputLines h]
  intro hm
  obtain ⟨l, hl, hc⟩ := List.mem_flatten.mp hm
  exact (readable_outputLines h l hl).2.1 hc

theorem balanced_outputLines (h : ∀ d ∈ ds, Extractable presDict d) :
    Balanced (((outputLines presDict ds).map roleOf).map Role.shape) := by
  have he : ((outputLines presDict ds).map roleOf).map Role.shape =
      (ds.map fun d => ((defnLines presDict d).map roleOf).map Role.shape).flatten := by
    simp [outputLines, List.map_flatten, Function.comp_def]
  rw [he]
  refine balanced_flatten _ fun rs hrs => ?_
  obtain ⟨d, hd, rfl⟩ := List.mem_map.mp hrs
  exact (h d hd).balanced_lines

theorem copiedFrom_eq (h : ∀ d ∈ ds, Extractable presDict d) {d : Defn}
    (hd : Extractable presDict d) :
    copiedFrom (dumped presDict ds) (blockHead (sourceGuard presDict d) d) =
      (outputLines presDict ds).length + (sourceGuard presDict d).toList.length +
        (commentLines d.srcFile d.startLine d.endLine).length + 1 := by
  have hhead : blockHead (sourceGuard presDict d) d =
      (((sourceGuard presDict d).map guardLine).toList ++
        commentLines d.srcFile d.startLine d.endLine).flatten := by
    rw [blockHead, List.flatten_append, flatten_commentLines]
    cases sourceGuard presDict d <;> simp
  have hlines : ∀ l ∈ ((sourceGuard presDict d).map guardLine).toList ++
      commentLines d.srcFile d.startLine d.endLine, IsLine l := by
    intro l hl
    simp only [List.mem_append, Option.mem_toList, Option.map_eq_some_iff] at hl
    obtain ⟨g, hg, rfl⟩ | hl := hl
    · exact guardLine_isLine (hd.guard_token g hg)
    · exact commentLines_isLine hd.oneLine.1 _ _ l hl
  rw [copiedFrom, readlines_dumped h, hhead, readlines_lines _ hlines]
  cases sourceGuard presDict d with
  | none => simp
  | some g =>
    simp
    omega

theorem drop_outputLines (h : ∀ d ∈ ds, Extractable presDict d) {d : Defn}
    (hd : Extractable presDict d) (ds' : List Defn) :
    ∃ tail, (outputLines presDict (ds ++ d :: ds')).drop
        (copiedFrom (dumped presDict ds) (blockHead (sourceGuard presDict d) d) - 1) =
      sourceLines (fileLines fs d.srcFile) d.startLine d.endLine ++ tail := by
  refine ⟨((sourceGuard presDict d).map fun _ => endGuard).toList ++ outputLines presDict ds', ?_⟩
  have hsplit : outputLines presDict (ds ++ d :: ds') =
      (outputLines presDict ds ++ (((sourceGuard presDict d).map guardLine).toList ++
        commentLines d.srcFile d.startLine d.endLine)) ++
      (sourceLines (fileLines fs d.srcFile) d.startLine d.endLine ++
        (((sourceGuard presDict d).map fun _ => endGuard).toList ++
          outputLines presDict ds')) := by
    simp [outputLines, defnLines, blockLines]
  rw [hsplit, copiedFrom_eq h hd]
  apply List.drop_left'
  cases sourceGuard presDict d with
  | none => simp
  | some g =>
    simp
    omega

theorem slice_outputLines (h : ∀ d ∈ ds, Extractable presDict d) {d : Defn}
    (hd : Extractable presDict d) (ds' : List Defn) {a b : Int}
    (ha : a = copiedFrom (dumped presDict ds) (blockHead (sourceGuard presDict d) d))
    (hb : b = a + (d.endLine - d.startLine)) :
    sourceLines (outputLines presDict (ds ++ d :: ds')) a b =
      sourceLines (fileLines fs d.srcFile) d.startLine d.endLine := by
  obtain ⟨tail, htail⟩ := drop_outputLines h hd ds'
  have hlen := length_sourceLines hd.first hd.ordered hd.last
  have hfrom : 1 ≤ copiedFrom (dumped presDict ds) (blockHead (sourceGuard presDict d) d) :=
    Nat.le_add_left 1 _
  have hdrop : (a - 1).toNat =
      copiedFrom (dumped presDict ds) (blockHead (sourceGuard presDict d) d) - 1 := by omega
  have htake : (b + 1 - max 1 a).toNat =
      (sourceLines (fileLines fs d.srcFile) d.startLine d.endLine).length := by omega
  conv_lhs => rw [sourceLines, hdrop, htail, htake]
  exact List.take_left

theorem lookup_outputLines (h : ∀ d ∈ ds, Extractable presDict d) {d : Defn}
    (hd : Extractable presDict d) {ds' : List Defn} (h' : ∀ d ∈ ds', Extractable presDict d)
    {pres : List Region} {st : List (Guard × Nat)}
    (hs : scan 1 [] ((outputLines presDict (ds ++ d :: ds')).map roleOf) = some (pres, st))
    {a b : Int}
    (ha : a = copiedFrom (dumped presDict ds) (blockHead (sourceGuard presDict d) d))
    (hb : b = a + (d.endLine - d.startLine)) :
    pickedGuard pres a b = sourceGuard presDict d := by
  obtain ⟨pres', hs', hlook⟩ := lookup_block (sourceGuard presDict d)
    (balanced_outputLines h) (balanced_outputLines h')
    (commentRoles_plain d.srcFile d.startLine d.endLine) hd.balanced_roles
  have hroles : (outputLines presDict (ds ++ d :: ds')).map roleOf =
      (outputLines presDict ds).map roleOf ++ ((defnLines presDict d).map roleOf ++
        (outputLines presDict ds').map roleOf) := by
    simp [outputLines]
  rw [hroles, hd.roles, hs'] at hs
  simp only [Option.some.injEq, Prod.mk.injEq] at hs
  have hlen := length_sourceLines hd.first hd.ordered hd.last
  have hord := hd.ordered
  rw [copiedFrom_eq h hd] at ha
  rw [← hs.1]
  apply hlook
  · simp only [List.length_map]
    omega
  · simp only [List.length_map]
    omega
  · omega

end Output

/-- Whatever dumpFns writes for extractable definitions is scanned without an exception. Each of
them has its block, and on the output lines of its copied range the lookup gives what it gives on
the range in the source file. -/
theorem dumped_guards_read_back (fs : FS) (presDict : PresDict fs)
    (fns : OrderedDict Str (Option Defn))
    (h : ∀ d ∈ written fns, Extractable presDict d) :
    ∃ out lines pres, dumpFns fs presDict fns = .ok out ∧ out.map Dumped.defn = written fns ∧
      readlines (universalNewlines (dumpText out)) = lines ∧
      createPreprocessorMap lines = .ok pres ∧
      ∀ earlier x later, out = earlier ++ x :: later →
        ∃ a b : Int, a = copiedFrom earlier (blockHead (sourceGuard presDict x.defn) x.defn) ∧
          b = a + (x.defn.endLine - x.defn.startLine) ∧
          sourceLines lines a b =
            sourceLines (fileLines fs x.defn.srcFile) x.defn.startLine x.defn.endLine ∧
          pickedGuard pres a b = sourceGuard presDict x.defn := by
  have hread : readlines (universalNewlines (dumpText (dumped presDict (written fns)))) =
      outputLines presDict (written fns) := by
    rw [universalNewlines_dumped h]
    simpa [readlines] using readlines_dumped h []
  obtain ⟨pres, hpres⟩ := scan_balanced 1 _ (balanced_outputLines h)
  refine ⟨dumped presDict (written fns), _, pres,
    dumpFns_scanned presDict fns fun d hd => (h d hd).scanned, ?_, hread, ?_, ?_⟩
  · rw [dumped, List.map_map]
    exact List.map_id _
  · exact (createPreprocessorMap_ok_iff _ _).mpr
      ⟨fun l hl => (readable_outputLines h l hl).2.2, [], hpres []⟩
  · intro earlier x later hout
    obtain ⟨ds, ds', hds, rfl, hx⟩ := List.map_eq_append_iff.mp hout
    obtain ⟨d, ds'', rfl, rfl, rfl⟩ := List.map_eq_cons_iff.mp hx
    rw [hds] at h hpres ⊢
    have h₁ : ∀ d ∈ ds, Extractable presDict d := fun x hx => h x (by simp [hx])
    have h₂ : ∀ d ∈ ds'', Extractable presDict d := fun x hx => h x (by simp [hx])
    have hd : Extractable presDict d := h d (by simp)
    exact ⟨_, _, rfl, rfl, slice_outputLines h₁ hd ds'' rfl rfl,
      lookup_outputLines h₁ hd h₂ (hpres []) rfl rfl⟩

def mixedText : Str :=
  "#ifdef A\nint f(void) \n#if B\n1;\n#endif \n#endif \nint g;\n".toList

def mixedFile : FS := filesOf [("a.c".toList, mixedText)]

def mixedRegions : List Region :=
  [⟨(.ifnz, "B".toList), 3, 4⟩, ⟨(.ifdef, "A".toList), 1, 5⟩]

def mixedDict : PresDict mixedFile :=
  (PresDict.empty mixedFile).add "a.c".toList mixedRegions (by decide +kernel)

def mixedFns : OrderedDict Str (Option Defn) :=
  ⟨[("f:a.c".toList, some ⟨"f".toList, "a.c".toList, 2, 5⟩),
    ("g:a.c".toList, some ⟨"g".toList, "a.c".toList, 7, 7⟩)], by decide⟩

theorem mixed_extractable : ∀ d ∈ written mixedFns, Extractable mixedDict d := by
  have hw : written mixedFns =
      [⟨"f".toList, "a.c".toList, 2, 5⟩, ⟨"g".toList, "a.c".toList, 7, 7⟩] := by decide +kernel
  have hends : EndsLine (universalNewlines mixedText) :=
    Or.inr ⟨mixedText.dropLast, by decide +kernel⟩
  rw [hw]
  intro d hd
  simp only [List.mem_cons, List.not_mem_nil, or_false] at hd
  obtain rfl | rfl := hd
  · exact ⟨by decide +kernel, ⟨mixedText, rfl, hends⟩, by decide, by decide, by decide +kernel,
      by decide +kernel, by decide⟩
  · exact ⟨by decide +kernel, ⟨mixedText, rfl, hends⟩, by decide, by decide, by decide +kernel,
      by decide +kernel, by decide⟩

theorem dumped_guards_read_back_mixed :
    ∃ out lines pres, dumpFns mixedFile mixedDict mixedFns = .ok out ∧
      out.map Dumped.defn = [⟨"f".toList, "a.c".toList, 2, 5⟩, ⟨"g".toList, "a.c".toList, 7, 7⟩] ∧
      readlines (universalNewlines (dumpText out)) = lines ∧
      createPreprocessorMap lines = .ok pres ∧
      ∀ earlier x later, out = earlier ++ x :: later →
        ∃ a b : Int, a = copiedFrom earlier (blockHead (sourceGuard mixedDict x.defn) x.defn) ∧
          b = a + (x.defn.endLine - x.defn.startLine) ∧
          sourceLines lines a b =
            sourceLines (fileLines mixedFile x.defn.srcFile) x.defn.startLine x.defn.endLine ∧
          pickedGuard pres a b = sourceGuard mixedDict x.defn :=
  dumped_guards_read_back mixedFile mixedDict mixedFns mixed_extractable

end OpenedExtraction.RoundTrip
