import OpenedExtraction.Documents

/-! AI descriptions of functions in the comments database: update_ai_func_description. -/
namespace OpenedExtraction.AiComments
open OpenedExtraction.PyText OpenedExtraction.Documents

/-- file_name.split('/')[-1] -/
def lastComponent (fileName : Str) : Str :=
  (splitSep ['/'] fileName).getLast (splitSepFrom_ne_nil ['/'] 0 [] fileName)

/-- A comment_dict. Its names, as they are used in patterns, have no metacharacters but dots. -/
structure Comment where
  funcName : Str
  file : Str
  startLine : Int
  description : Str
  plainName : Plain (remove '*' funcName)
  plainFile : Plain (lastComponent file)
  deriving DecidableEq

/-- The function name without stars. -/
def Comment.name (c : Comment) : Str := remove '*' c.funcName

def Comment.fname (c : Comment) : Str := lastComponent c.file

inductive Desc where
  | none
  | text (s : Str)
  | comment (c : Comment)
  deriving DecidableEq

/-- None or "{}". -/
def Desc.isEmpty : Desc → Bool
  | .none => true
  | .text s => s = "\x7b\x7d".toList
  | .comment _ => false

structure Record where
  funcName : Option Str
  file : Option Str
  aiDescs : Option (List Desc)
  deriving DecidableEq

/-- The database after a call, and whether KeyError ended the call. -/
structure Outcome where
  db : List Record
  raised : Bool

def Record.setDescs (descs : List Desc) (r : Record) : Record := { r with aiDescs := some descs }

def readQuery (tdb : TinyDB Record) (c : Comment) (r : Record) : Bool :=
  tdb.fieldSearch c.name r.funcName && tdb.fieldSearch c.fname r.file

def writeQuery (tdb : TinyDB Record) (c : Comment) (r : Record) : Bool :=
  tdb.fieldMatches c.name r.funcName && tdb.fieldSearch c.fname r.file

/-- The loop over the search result, whose documents are copies from before the updates. -/
def updateLoop (tdb : TinyDB Record) (c : Comment) : List Record → List Record → Outcome
  | db, [] => ⟨db, false⟩
  | db, e :: res =>
    match e.aiDescs with
    | none => ⟨db, true⟩
    | some aiDescs =>
      if aiDescs.length = 1 then
        updateLoop tdb c (tdb.update db (Record.setDescs [.comment c]) (writeQuery tdb c)) res
      else
        updateLoop tdb c (tdb.update db (Record.setDescs (aiDescs ++ [.comment c]))
          (writeQuery tdb c)) res

/-- The second search only prints, but printing needs the descriptions. -/
def updateAiFuncDescription (tdb : TinyDB Record) (db : List Record) (c : Comment) : Outcome :=
  let o := updateLoop tdb c db (tdb.search db (readQuery tdb c))
  if o.raised then o
  else ⟨o.db, (tdb.search o.db (readQuery tdb c)).any fun e => e.aiDescs.isNone⟩

section Selection
variable (name fname : Str)

/-- The pattern occurs in funcName, and the file pattern in File. -/
def Read (r : Record) : Bool :=
  r.funcName.any (reSearch name) && r.file.any (reSearch fname)

/-- The pattern fits the start of funcName, and the file pattern occurs in File. -/
def Written (r : Record) : Bool :=
  r.funcName.any (reMatch name) && r.file.any (reSearch fname)

def writeAll (descs : List Desc) (db : List Record) : List Record :=
  db.map fun r => if Written name fname r then r.setDescs descs else r

theorem written_setDescs (descs : List Desc) (r : Record) :
    Written name fname (r.setDescs descs) = Written name fname r := rfl

theorem writeAll_writeAll (descs descs' : List Desc) (db : List Record) :
    writeAll name fname descs' (writeAll name fname descs db) =
      writeAll name fname descs' db := by
  rw [writeAll, writeAll, List.map_map]
  refine List.map_congr_left fun r _ => ?_
  by_cases h : Written name fname r
  · simp only [Function.comp_apply, h, if_true, written_setDescs]
    rfl
  · simp [h]

theorem read_of_written {r : Record} (h : Written name fname r = true) :
    Read name fname r = true := by
  rw [Written, Bool.and_eq_true] at h
  rw [Read, Bool.and_eq_true]
  refine ⟨?_, h.2⟩
  cases hf : r.funcName with
  | none => simp [hf] at h
  | some f =>
    rw [hf, Option.any_some] at h
    exact reSearch_of_reMatch h.1

end Selection

theorem readQuery_eq (tdb : TinyDB Record) (c : Comment) :
    readQuery tdb c = Read c.name c.fname := by
  funext r
  rw [readQuery, tdb.fieldSearch_eq c.name _ c.plainName,
    tdb.fieldSearch_eq c.fname _ c.plainFile, Read]

theorem writeQuery_eq (tdb : TinyDB Record) (c : Comment) :
    writeQuery tdb c = Written c.name c.fname := by
  funext r
  rw [writeQuery, tdb.fieldMatches_eq c.name _ c.plainName,
    tdb.fieldSearch_eq c.fname _ c.plainFile, Written]

theorem update_eq_writeAll (tdb : TinyDB Record) (c : Comment) (db : List Record)
    (descs : List Desc) :
    tdb.update db (Record.setDescs descs) (writeQuery tdb c) =
      writeAll c.name c.fname descs db := by
  rw [tdb.update_eq, writeQuery_eq]
  rfl

def newDescs (descs : List Desc) (c : Comment) : List Desc :=
  if descs.length = 1 then [.comment c] else descs ++ [.comment c]

/-- The descriptions of the last record before the first one without descriptions. -/
def lastRead : List Record → Option (List Desc)
  | [] => none
  | e :: res => e.aiDescs.bind fun descs => (lastRead res).or (some descs)

section Call
variable (tdb : TinyDB Record) (c : Comment)

/-- Every iteration writes to the same records, so only the last list stays. -/
theorem updateLoop_db (db res : List Record) :
    (updateLoop tdb c db res).db = match lastRead res with
      | none => db
      | some descs => writeAll c.name c.fname (newDescs descs c) db := by
  induction res generalizing db with
  | nil => rfl
  | cons e res ih =>
    rw [updateLoop, lastRead]
    cases he : e.aiDescs with
    | none => rfl
    | some descs =>
      simp only [Option.bind_some]
      rw [← apply_ite fun d => updateLoop tdb c d res, update_eq_writeAll, update_eq_writeAll,
        ← apply_ite fun v => writeAll c.name c.fname v db, ← newDescs, ih]
      cases lastRead res with
      | none => rfl
      | some last => exact writeAll_writeAll _ _ _ _ db

theorem updateLoop_raised (db res : List Record) :
    (updateLoop tdb c db res).raised = res.any fun e => e.aiDescs.isNone := by
  induction res generalizing db with
  | nil => rfl
  | cons e res ih =>
    rw [updateLoop, List.any_cons]
    cases he : e.aiDescs with
    | none => rfl
    | some descs =>
      simp only [Option.isNone_some, Bool.false_or]
      split
      · exact ih _
      · exact ih _

theorem call_db (db : List Record) :
    (updateAiFuncDescription tdb db c).db = match lastRead (db.filter (Read c.name c.fname)) with
      | none => db
      | some descs => writeAll c.name c.fname (newDescs descs c) db := by
  have hloop := updateLoop_db tdb c db (db.filter (Read c.name c.fname))
  rw [updateAiFuncDescription, tdb.search_eq, readQuery_eq, ← hloop]
  split <;> rfl

end Call

def Own (c : Comment) (r : Record) : Prop :=
  r.funcName = some c.name ∧ r.file.map lastComponent = some c.fname

/-- The fields by which records are selected. -/
def Record.names (r : Record) : Option Str × Option Str := (r.funcName, r.file)

/-- The call leaves all records of other functions and files unchanged. -/
def Framed (tdb : TinyDB Record) (c : Comment) (db : List Record) : Prop :=
  ∀ (i : Nat) (r : Record), db[i]? = some r → ¬ Own c r →
    (updateAiFuncDescription tdb db c).db[i]? = some r

section Frame
variable {tdb : TinyDB Record} {c : Comment} {db db₀ : List Record}

theorem unwritten_kept {i : Nat} {r : Record} (hi : db[i]? = some r)
    (hw : Written c.name c.fname r = false) :
    (updateAiFuncDescription tdb db c).db[i]? = some r := by
  rw [call_db]
  split
  · exact hi
  · simp [writeAll, hi, hw]

theorem written_names {r r' : Record} (h : r.names = r'.names) (name fname : Str) :
    Written name fname r = Written name fname r' := by
  have hf : r.funcName = r'.funcName := congrArg Prod.fst h
  have hs : r.file = r'.file := congrArg Prod.snd h
  rw [Written, Written, hf, hs]

theorem own_names {r r' : Record} (h : r.names = r'.names) : Own c r ↔ Own c r' := by
  have hf : r.funcName = r'.funcName := congrArg Prod.fst h
  have hs : r.file = r'.file := congrArg Prod.snd h
  rw [Own, Own, hf, hs]

def unfilled (db : List Record) : List Record := db.map (Record.setDescs [.none])

theorem unfilled_names (db : List Record) : (unfilled db).map Record.names = db.map Record.names := by
  rw [unfilled, List.map_map]
  rfl

theorem lastRead_unfilled {res : List Record} (h : ∀ r ∈ res, r.aiDescs = some [.none])
    (hne : res ≠ []) : lastRead res = some [.none] := by
  induction res with
  | nil => exact absurd rfl hne
  | cons e res ih =>
    rw [lastRead, h e (by simp), Option.bind_some]
    cases res with
    | nil => rfl
    | cons e' res => rw [ih (fun r hr => h r (by simp [hr])) (by simp)]; rfl

theorem unfilled_overwritten {i : Nat} {r : Record} (hi : db[i]? = some r)
    (hw : Written c.name c.fname r = true) :
    (unfilled db)[i]? = some (r.setDescs [.none]) ∧
      (updateAiFuncDescription tdb (unfilled db) c).db[i]? =
        some (r.setDescs [.comment c]) := by
  have hu : (unfilled db)[i]? = some (r.setDescs [.none]) := by
    rw [unfilled, List.getElem?_map, hi, Option.map_some]
  have hread : (unfilled db).filter (Read c.name c.fname) ≠ [] :=
    List.ne_nil_of_mem (List.mem_filter.mpr ⟨List.mem_of_getElem? hu, read_of_written _ _ hw⟩)
  have hlast : lastRead ((unfilled db).filter (Read c.name c.fname)) = some [.none] := by
    refine lastRead_unfilled (fun x hx => ?_) hread
    obtain ⟨y, -, rfl⟩ := List.mem_map.mp (List.mem_filter.mp hx).1
    rfl
  refine ⟨hu, ?_⟩
  rw [call_db, hlast]
  simp only [writeAll, List.getElem?_map, hu, Option.map_some, written_setDescs, hw, if_true]
  rfl

end Frame

/-- For every database and comment: whatever descriptions the records hold, the call leaves those
of other functions and files unchanged, if and only if every record that the write selects is the
comment's own. -/
theorem frame_iff (tdb : TinyDB Record) (db₀ : List Record) (c : Comment) :
    (∀ db : List Record, db.map Record.names = db₀.map Record.names → Framed tdb c db) ↔
      ∀ r ∈ db₀, Written c.name c.fname r = true → Own c r := by
  constructor
  · intro h r hr hw
    by_contra hown
    obtain ⟨i, hi⟩ := List.mem_iff_getElem?.mp hr
    obtain ⟨hu, hafter⟩ := @unfilled_overwritten tdb c db₀ i r hi hw
    have hkept := h (unfilled db₀) (unfilled_names db₀) i _ hu hown
    rw [hafter, Option.some.injEq] at hkept
    cases congrArg Record.aiDescs hkept
  · intro h db hdb i r hi hown
    refine unwritten_kept hi (Bool.eq_false_iff.mpr fun hw => hown ?_)
    -- the record with the same names
    have hn : (db₀.map Record.names)[i]? = some r.names := by
      rw [← hdb, List.getElem?_map, hi, Option.map_some]
    rw [List.getElem?_map, Option.map_eq_some_iff] at hn
    obtain ⟨r₀, hr₀, hnames⟩ := hn
    rw [← own_names hnames]
    exact h r₀ (List.mem_of_getElem? hr₀) ((written_names hnames _ _).trans hw)

def encapFile : Str := "/src/encap.c".toList

theorem encap_plain : Plain (remove '*' "encap".toList) ∧ Plain (lastComponent encapFile) :=
  ⟨plain_of_all (by decide +kernel), plain_of_all (by decide +kernel)⟩

def encapComment (description : Str) : Comment :=
  ⟨"encap".toList, encapFile, 10, description, encap_plain.1, encap_plain.2⟩

theorem encapComment_names (description : Str) :
    (encapComment description).name = "encap".toList ∧
      (encapComment description).file = encapFile := by
  have hname : remove '*' "encap".toList = "encap".toList := by decide +kernel
  exact ⟨hname, rfl⟩

def blankRecord (funcName : Str) : Record := ⟨some funcName, some encapFile, some [.none]⟩

/-- The comment on encap also replaces the descriptions of encap_v4. -/
theorem longer_name_overwritten :
    ¬ Own (encapComment []) (blankRecord "encap_v4".toList) ∧
      (updateAiFuncDescription (.ofLists Record)
        [blankRecord "encap".toList, blankRecord "encap_v4".toList] (encapComment [])).db[1]? =
        some ⟨some "encap_v4".toList, some encapFile, some [.comment (encapComment [])]⟩ ∧
      ¬ Framed (.ofLists Record) (encapComment [])
        [blankRecord "encap".toList, blankRecord "encap_v4".toList] := by
  have hother : ¬ Own (encapComment []) (blankRecord "encap_v4".toList) := by
    intro h
    exact absurd (Option.some.inj h.1) (by decide +kernel)
  have hchanged : (updateAiFuncDescription (.ofLists Record)
      [blankRecord "encap".toList, blankRecord "encap_v4".toList] (encapComment [])).db[1]? =
      some ⟨some "encap_v4".toList, some encapFile, some [.comment (encapComment [])]⟩ := rfl
  refine ⟨hother, hchanged, fun h => ?_⟩
  have hkept := h 1 (blankRecord "encap_v4".toList) rfl hother
  rw [hchanged, Option.some.injEq] at hkept
  exact absurd (congrArg Record.aiDescs hkept) (by simp [blankRecord])

/-- The calls one after the other; there is no result if one of them raises. -/
def updateAll (tdb : TinyDB Record) : List Record → List Comment → Option (List Record)
  | db, [] => some db
  | db, c :: cs =>
    let o := updateAiFuncDescription tdb db c
    if o.raised then none else updateAll tdb o.db cs

def Record.descs (r : Record) : List Desc := r.aiDescs.getD []

def lastRecord (name fname : Str) (db : List Record) : Option Record :=
  (db.filter (Read name fname)).getLast?

/-- Every record of the function and file holds all comments, and what it held before unless it
was empty. -/
def Accumulated (name file : Str) (cs : List Comment) (db db' : List Record) : Prop :=
  ∀ (i : Nat) (r : Record), db[i]? = some r → r.funcName = some name → r.file = some file →
    ∃ r', db'[i]? = some r' ∧ (∀ c ∈ cs, Desc.comment c ∈ r'.descs) ∧
      ∀ x ∈ r.descs, x.isEmpty = false → x ∈ r'.descs

section Calls
variable {tdb : TinyDB Record} {c : Comment} {db db' : List Record} {name fname file : Str}

theorem lastRead_eq {res : List Record} (h : (res.any fun e => e.aiDescs.isNone) = false) :
    lastRead res = res.getLast?.map Record.descs := by
  induction res with
  | nil => rfl
  | cons e res ih =>
    rw [List.any_cons, Bool.or_eq_false_iff] at h
    cases he : e.aiDescs with
    | none => simp [he] at h
    | some descs =>
      rw [lastRead, he, Option.bind_some, ih h.2, List.getLast?_cons]
      cases res.getLast? with
      | none => simp [Record.descs, he]
      | some last => rfl

/-- Every record that is read has descriptions. -/
def Keyed (name fname : Str) (db : List Record) : Prop :=
  ∀ r ∈ db, Read name fname r = true → r.aiDescs ≠ none

theorem any_isNone_iff (name fname : Str) (db : List Record) :
    ((db.filter (Read name fname)).any fun e => e.aiDescs.isNone) = false ↔
      Keyed name fname db := by
  rw [List.any_eq_false]
  simp only [List.mem_filter, and_imp, Option.isNone_iff_eq_none, Keyed, ne_eq]

theorem Keyed.writeAll (h : Keyed name fname db) (descs : List Desc) :
    Keyed name fname (writeAll name fname descs db) := by
  intro r' hr' hread
  obtain ⟨r, hr, rfl⟩ := List.mem_map.mp hr'
  by_cases hw : Written name fname r
  · rw [if_pos hw]
    exact Option.some_ne_none descs
  · rw [if_neg hw] at hread ⊢
    exact h r hr hread

theorem call_raised_iff :
    (updateAiFuncDescription tdb db c).raised = false ↔ Keyed c.name c.fname db := by
  have hloop := updateLoop_raised tdb c db (db.filter (Read c.name c.fname))
  rw [updateAiFuncDescription, tdb.search_eq, tdb.search_eq, readQuery_eq]
  constructor
  · intro h
    split at h
    · next hr =>
      rw [hr] at h
      cases h
    · next hr =>
      rw [Bool.not_eq_true, hloop] at hr
      exact (any_isNone_iff _ _ db).mp hr
  · intro hk
    rw [(any_isNone_iff _ _ db).mpr hk] at hloop
    rw [if_neg (by simp [hloop]), any_isNone_iff, updateLoop_db]
    cases lastRead (db.filter (Read c.name c.fname)) with
    | none => exact hk
    | some descs => exact hk.writeAll _

theorem call_writes (hk : Keyed c.name c.fname db) :
    (updateAiFuncDescription tdb db c).db = writeAll c.name c.fname
      (newDescs (((lastRecord c.name c.fname db).map Record.descs).getD []) c) db := by
  rw [call_db, lastRead_eq ((any_isNone_iff _ _ db).mpr hk), lastRecord]
  cases hl : (db.filter (Read c.name c.fname)).getLast? with
  | none =>
    -- no record is read, so none is written
    have hnil := List.getLast?_eq_none_iff.mp hl
    rw [List.filter_eq_nil_iff] at hnil
    have hsame : writeAll c.name c.fname (newDescs [] c) db = db.map id :=
      List.map_congr_left fun r hr => if_neg fun hw => hnil r hr (read_of_written _ _ hw)
    rw [List.map_id] at hsame
    exact hsame.symm
  | some last => rfl

theorem lastRecord_writeAll (descs : List Desc) (db : List Record) :
    lastRecord name fname (writeAll name fname descs db) = (lastRecord name fname db).map fun r =>
      if Written name fname r then r.setDescs descs else r := by
  have hread : ∀ r : Record, Read name fname (if Written name fname r then r.setDescs descs else r) =
      Read name fname r := by
    intro r
    split <;> rfl
  rw [lastRecord, lastRecord, writeAll, List.filter_map, List.getLast?_map]
  simp only [Function.comp_def, hread]

theorem updateAll_append (cs : List Comment) (c : Comment) :
    updateAll tdb db (cs ++ [c]) = some db' ↔ ∃ db₁, updateAll tdb db cs = some db₁ ∧
      (updateAiFuncDescription tdb db₁ c).raised = false ∧
      (updateAiFuncDescription tdb db₁ c).db = db' := by
  induction cs generalizing db with
  | nil => cases hr : (updateAiFuncDescription tdb db c).raised <;> simp [updateAll, hr]
  | cons c₁ cs ih =>
    cases hr : (updateAiFuncDescription tdb db c₁).raised with
    | true => simp [updateAll, hr]
    | false => simpa [updateAll, hr] using ih

theorem updateAll_returns_iff {cs : List Comment}
    (hname : ∀ x ∈ cs, x.name = name ∧ x.fname = fname) :
    (∃ db', updateAll tdb db cs = some db') ↔ (cs ≠ [] → Keyed name fname db) := by
  induction cs generalizing db with
  | nil => simp [updateAll]
  | cons c cs ih =>
    obtain ⟨hn, hf⟩ := hname c (by simp)
    have hraised : (updateAiFuncDescription tdb db c).raised = false ↔ Keyed name fname db := by
      rw [call_raised_iff, hn, hf]
    rw [updateAll]
    by_cases hk : Keyed name fname db
    · rw [if_neg (by simp [hraised.mpr hk])]
      have hnext : Keyed name fname (updateAiFuncDescription tdb db c).db := by
        rw [call_writes (by rw [hn, hf]; exact hk), hn, hf]
        exact hk.writeAll _
      exact iff_of_true ((ih fun x hx => hname x (by simp [hx])).mpr fun _ => hnext) fun _ => hk
    · rw [if_pos (by simpa using hraised.not.mpr hk)]
      simp [hk]

/-- What the written records hold after the calls cs and c, where descs are the descriptions of the
last record that is read. -/
def finalDescs (descs : List Desc) (written : Bool) (cs : List Comment) (c : Comment) : List Desc :=
  if descs.length ≤ 1 then [.comment c]
  else if written then descs ++ (cs ++ [c]).map .comment
  else descs ++ [.comment c]

theorem newDescs_eq (descs : List Desc) (written : Bool) (c : Comment) :
    newDescs descs c = finalDescs descs written [] c := by
  match descs with
  | [] => rfl
  | [_] => rfl
  | x :: y :: descs => cases written <;> simp [newDescs, finalDescs]

theorem newDescs_finalDescs (descs : List Desc) (written : Bool) (cs : List Comment)
    (c c' : Comment) :
    newDescs (if written then finalDescs descs written cs c else descs) c' =
      finalDescs descs written (cs ++ [c]) c' := by
  cases written with
  | false =>
    rw [if_neg (by simp), newDescs_eq descs false]
    rfl
  | true =>
    rw [if_pos rfl, finalDescs, finalDescs]
    by_cases hlen : descs.length ≤ 1
    · rw [if_pos hlen, if_pos hlen]
      rfl
    · rw [if_neg hlen, if_neg hlen, if_pos rfl, if_pos rfl, newDescs, if_neg]
      · simp
      · simp only [List.length_append, List.length_map]
        omega

/-- All calls together write one list to all written records. -/
theorem updateAll_writes {cs : List Comment} {last : Record}
    (hname : ∀ x ∈ cs ++ [c], x.name = name ∧ x.fname = fname)
    (hlast : lastRecord name fname db = some last)
    (h : updateAll tdb db (cs ++ [c]) = some db') :
    db' = writeAll name fname (finalDescs last.descs (Written name fname last) cs c) db := by
  induction cs using List.reverseRecOn generalizing c db' with
  | nil =>
    obtain ⟨db₁, h₁, hr, rfl⟩ := (updateAll_append [] c).mp h
    rw [updateAll, Option.some.injEq] at h₁
    obtain ⟨hn, hf⟩ := hname c (by simp)
    rw [← h₁] at hr ⊢
    rw [call_writes (call_raised_iff.mp hr), hn, hf, hlast, ← newDescs_eq]
    rfl
  | append_singleton cs c' ih =>
    obtain ⟨db₁, h₁, hr, rfl⟩ := (updateAll_append (cs ++ [c']) c).mp h
    have hdb := ih (fun x hx => hname x (List.mem_append_left [c] hx)) h₁
    obtain ⟨hn, hf⟩ := hname c (by simp)
    rw [call_writes (call_raised_iff.mp hr), hn, hf, hdb, lastRecord_writeAll, hlast, writeAll_writeAll,
      ← newDescs_finalDescs]
    congr 2
    rw [Option.map_some, Option.map_some, Option.getD_some]
    split <;> rfl

theorem ne_last {cs : List Comment} (hn : (cs ++ [c]).Nodup) : ∀ x ∈ cs, x ≠ c :=
  fun x hx => (List.nodup_append.mp hn).2.2 x hx c (List.mem_singleton_self c)

theorem only_comment_iff {cs : List Comment} (hn : (cs ++ [c]).Nodup) (held : Desc → Prop) :
    ((∀ x ∈ cs ++ [c], Desc.comment x ∈ [.comment c]) ∧
        ∀ x, held x → x ∈ [Desc.comment c]) ↔
      (cs ++ [c]).length = 1 ∧ ∀ x, held x → x ∈ (cs ++ [c]).map .comment := by
  constructor
  · intro h
    obtain ⟨hall, hheld⟩ := h
    have hnil : cs = [] := by
      rw [List.eq_nil_iff_forall_not_mem]
      intro x hx
      exact ne_last hn x hx (by simpa using hall x (List.mem_append_left [c] hx))
    rw [hnil]
    exact ⟨rfl, hheld⟩
  · intro h
    obtain ⟨hone, hheld⟩ := h
    have hnil : cs = [] := by simpa using hone
    rw [hnil] at hheld ⊢
    exact ⟨by simp, hheld⟩

theorem last_comment_iff {cs : List Comment} (hn : (cs ++ [c]).Nodup) (descs : List Desc)
    (held : Desc → Prop) :
    ((∀ x ∈ cs ++ [c], .comment x ∈ descs ++ [.comment c]) ∧
        ∀ x, held x → x ∈ descs ++ [.comment c]) ↔
      (∀ x ∈ cs, .comment x ∈ descs) ∧
        ∀ x, held x → x ∈ descs ++ (cs ++ [c]).map .comment := by
  have hcs : (∀ x ∈ cs ++ [c], .comment x ∈ descs ++ [.comment c]) ↔
      ∀ x ∈ cs, .comment x ∈ descs := by
    constructor
    · intro hall x hx
      have hin := hall x (List.mem_append_left [c] hx)
      rw [List.mem_append, List.mem_singleton, Desc.comment.injEq] at hin
      exact hin.resolve_right (ne_last hn x hx)
    · intro hall x hx
      cases List.mem_append.mp hx with
      | inl hx => exact List.mem_append_left _ (hall x hx)
      | inr hx => exact List.mem_append_right _ (by simpa using hx)
  rw [hcs]
  refine and_congr_right fun hall => forall₂_congr fun x _ => ?_
  rw [List.map_append, List.mem_append, List.mem_append, List.mem_append]
  refine or_congr_right' fun hno => (or_iff_right fun hx => ?_).symm
  obtain ⟨y, hy, rfl⟩ := List.mem_map.mp hx
  exact hno (hall y hy)

/-- Which comments and earlier descriptions are in the final list. -/
theorem finalDescs_iff {cs : List Comment} (hn : (cs ++ [c]).Nodup) (descs : List Desc)
    (written : Bool) (held : Desc → Prop) :
    ((∀ x ∈ cs ++ [c], .comment x ∈ finalDescs descs written cs c) ∧
        ∀ x, held x → x ∈ finalDescs descs written cs c) ↔
      if descs.length ≤ 1 then
        (cs ++ [c]).length = 1 ∧ ∀ x, held x → x ∈ (cs ++ [c]).map .comment
      else (written = true ∨ ∀ x ∈ cs, .comment x ∈ descs) ∧
        ∀ x, held x → x ∈ descs ++ (cs ++ [c]).map .comment := by
  rw [finalDescs]
  by_cases hlen : descs.length ≤ 1
  · rw [if_pos hlen, if_pos hlen]
    exact only_comment_iff hn held
  · rw [if_neg hlen, if_neg hlen]
    cases written with
    | true =>
      rw [if_pos rfl]
      refine and_congr_left fun _ => iff_of_true (fun x hx => ?_) (Or.inl rfl)
      exact List.mem_append_right _ (List.mem_map_of_mem hx)
    | false =>
      rw [if_neg (by simp), or_iff_right (by simp)]
      exact last_comment_iff hn descs held

theorem lastComponent_suffix (file : Str) : lastComponent file <:+ file :=
  last_splitSepFrom (Or.inl rfl)
    (List.getLast?_eq_some_getLast (splitSepFrom_ne_nil ['/'] 0 [] file))

theorem written_own {r : Record} (hname : r.funcName = some name) (hfile : r.file = some file) :
    Written name (lastComponent file) r = true := by
  rw [Written, hname, hfile, Option.any_some, Option.any_some, reMatch_self,
    reSearch_of_suffix (lastComponent_suffix file)]
  rfl

end Calls

/-- What the last record that is read has to hold. With at most one description there is one call,
and nothing but its comment may be lost; with more, the record is written too or holds the
comments already, and it holds what the records of the function hold. -/
def Retained (name file : Str) (cs : List Comment) (db : List Record) : Prop :=
  ∀ r ∈ db, r.funcName = some name → r.file = some file → cs ≠ [] →
    ∀ last, lastRecord name (lastComponent file) db = some last →
      if last.descs.length ≤ 1 then
        cs.length = 1 ∧ ∀ x, x ∈ r.descs ∧ x.isEmpty = false → x ∈ cs.map .comment
      else (Written name (lastComponent file) last = true ∨
          ∀ c ∈ cs.dropLast, .comment c ∈ last.descs) ∧
        ∀ x, x ∈ r.descs ∧ x.isEmpty = false → x ∈ last.descs ++ cs.map .comment

theorem accumulated_iff {tdb : TinyDB Record} {db db' : List Record} {name file : Str}
    {cs : List Comment} (hname : ∀ c ∈ cs, c.name = name ∧ c.file = file) (hcs : cs.Nodup)
    (h : updateAll tdb db cs = some db') :
    Accumulated name file cs db db' ↔ Retained name file cs db := by
  cases List.eq_nil_or_concat cs with
  | inl hnil =>
    rw [hnil] at h ⊢
    rw [updateAll, Option.some.injEq] at h
    rw [← h]
    exact iff_of_true (fun i r hr _ _ => ⟨r, hr, by simp, fun x hx _ => hx⟩)
      fun r _ _ _ hne => absurd rfl hne
  | inr hconcat =>
    obtain ⟨init, c, rfl⟩ := hconcat
    rw [List.concat_eq_append] at h hcs hname ⊢
    have hfname : ∀ x ∈ init ++ [c], x.name = name ∧ x.fname = lastComponent file := by
      intro x hx
      obtain ⟨hn, hf⟩ := hname x hx
      exact ⟨hn, by rw [Comment.fname, hf]⟩
    have hrecord : ∀ (i : Nat) (r : Record), db[i]? = some r → r.funcName = some name →
        r.file = some file → ∀ last, lastRecord name (lastComponent file) db = some last →
        ∃ r', db'[i]? = some r' ∧ r'.descs = finalDescs last.descs
          (Written name (lastComponent file) last) init c := by
      intro i r hr hn hf last hlast
      rw [updateAll_writes hfname hlast h, writeAll, List.getElem?_map, hr, Option.map_some,
        if_pos (written_own hn hf)]
      exact ⟨_, rfl, rfl⟩
    constructor
    · intro hacc r hr hn hf _ last hlast
      obtain ⟨i, hi⟩ := List.mem_iff_getElem?.mp hr
      obtain ⟨r', hr', hall, hheld⟩ := hacc i r hi hn hf
      obtain ⟨r₂, hr₂, hdescs⟩ := hrecord i r hi hn hf last hlast
      rw [hr', Option.some.injEq] at hr₂
      rw [hr₂, hdescs] at hall hheld
      rw [List.dropLast_concat]
      exact (finalDescs_iff hcs _ _ _).mp ⟨hall, fun x hx => hheld x hx.1 hx.2⟩
    · intro hret i r hi hn hf
      have hr := List.mem_of_getElem? hi
      obtain ⟨last, hlast⟩ : ∃ last, lastRecord name (lastComponent file) db = some last := by
        have hread := List.mem_filter.mpr ⟨hr, read_of_written _ _ (written_own hn hf)⟩
        exact ⟨_, List.getLast?_eq_some_getLast (List.ne_nil_of_mem hread)⟩
      obtain ⟨r', hr', hdescs⟩ := hrecord i r hi hn hf last hlast
      have hcond := hret r hr hn hf (by simp) last hlast
      rw [List.dropLast_concat] at hcond
      obtain ⟨hall, hheld⟩ := (finalDescs_iff hcs _ _ _).mpr hcond
      exact ⟨r', hr', hdescs ▸ hall, fun x hx he => hdescs ▸ hheld x ⟨hx, he⟩⟩

/-- For every database and every sequence of different comments on one function and file: the
calls return and the records of the function then hold all comments and their earlier descriptions
if and only if every record that is read has descriptions and the last one retains them. -/
theorem comments_accumulate_iff (tdb : TinyDB Record) (db : List Record) (name file : Str)
    (cs : List Comment) (hname : ∀ c ∈ cs, c.name = name ∧ c.file = file) (hcs : cs.Nodup) :
    (∃ db', updateAll tdb db cs = some db' ∧ Accumulated name file cs db db') ↔
      (cs ≠ [] → Keyed name (lastComponent file) db) ∧ Retained name file cs db := by
  have hfname : ∀ c ∈ cs, c.name = name ∧ c.fname = lastComponent file := by
    intro c hc
    obtain ⟨hn, hf⟩ := hname c hc
    exact ⟨hn, by rw [Comment.fname, hf]⟩
  rw [← updateAll_returns_iff hfname]
  constructor
  · intro h
    obtain ⟨db', h, hacc⟩ := h
    exact ⟨⟨db', h⟩, (accumulated_iff hname hcs h).mp hacc⟩
  · intro h
    obtain ⟨⟨db', h⟩, hret⟩ := h
    exact ⟨db', h, (accumulated_iff hname hcs h).mpr hret⟩

def firstComment : Comment := encapComment "adds a header".toList

def secondComment : Comment := encapComment "checks the length".toList

theorem two_comments : (∀ c ∈ [firstComment, secondComment], c.name = "encap".toList ∧
    c.file = encapFile) ∧ [firstComment, secondComment].Nodup := by
  have hne : firstComment ≠ secondComment := by
    intro he
    exact absurd (congrArg Comment.description he) (by decide)
  refine ⟨?_, by simpa using hne⟩
  simpa using ⟨encapComment_names _, encapComment_names _⟩

def describedRecords : List Record :=
  [⟨some "encap".toList, some encapFile, some [.text "old".toList, .text "older".toList]⟩]

theorem comments_accumulate_iff_two :
    (∃ db', updateAll (.ofLists Record) describedRecords [firstComment, secondComment] = some db' ∧
        Accumulated "encap".toList encapFile [firstComment, secondComment] describedRecords db') ↔
      ([firstComment, secondComment] ≠ [] →
          Keyed "encap".toList (lastComponent encapFile) describedRecords) ∧
        Retained "encap".toList encapFile [firstComment, secondComment] describedRecords :=
  comments_accumulate_iff (.ofLists Record) describedRecords "encap".toList encapFile
    [firstComment, secondComment] two_comments.1 two_comments.2

def oneRecord : List Record := [blankRecord "encap".toList]

/-- The first of two comments is lost. -/
theorem first_comment_lost :
    (∀ c ∈ [firstComment, secondComment], c.name = "encap".toList ∧ c.file = encapFile) ∧
      [firstComment, secondComment].Nodup ∧
      updateAll (.ofLists Record) oneRecord [firstComment, secondComment] =
        some [⟨some "encap".toList, some encapFile, some [.comment secondComment]⟩] ∧
      ¬ Accumulated "encap".toList encapFile [firstComment, secondComment] oneRecord
        [⟨some "encap".toList, some encapFile, some [.comment secondComment]⟩] := by
  obtain ⟨hnames, hn⟩ := two_comments
  have hne : firstComment ≠ secondComment := by simpa using hn
  refine ⟨hnames, hn, rfl, fun h => ?_⟩
  obtain ⟨r', hr', hall, _⟩ := h 0 (blankRecord "encap".toList) rfl rfl rfl
  rw [List.getElem?_cons_zero, Option.some.injEq] at hr'
  have hin := hall firstComment (by simp)
  rw [← hr'] at hin
  simp [Record.descs, hne] at hin

end OpenedExtraction.AiComments
