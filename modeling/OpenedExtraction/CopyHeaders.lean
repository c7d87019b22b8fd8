import OpenedExtraction.ExtractAndDump

/-! Copying the listed headers into the output directory: copy_include_files. What os.makedirs and
shutil.copy do to the files is left open; either may raise at any call. -/
namespace OpenedExtraction.CopyHeaders
open OpenedExtraction.PyText OpenedExtraction.ExtractAndDump

/-- os.makedirs with exist_ok, and shutil.copy, on the files of the system. -/
structure System (σ : Type) where
  makedirs : Str → σ → Except PyErr σ
  copy : Str → Str → σ → Except PyErr σ

structure Copy where
  line : Str
  dirName : Str
  deriving DecidableEq, Repr

/-- full_line.split(base_dir)[-1] -/
def headerPath (fullLine baseDir : Str) : Except PyErr Str :=
  if baseDir = [] then .error .valueError
  else match (splitSep baseDir fullLine).getLast? with
    | none => .error .indexError
    | some path => .ok path

/-- dir_name. readlink stands for the output of readlink -f, which ends the program if it fails. -/
def destination (readlink : Str → Option Str) (opdir baseDir line : Str) : Except PyErr Str :=
  match readlink line with
  | none => .error .systemExit
  | some fullLine => do
    let path ← headerPath fullLine baseDir
    .ok (opdir ++ '/' :: path)

/-- os.path.dirname -/
def dirname (path : Str) : Str :=
  let head := (path.reverse.dropWhile (· ≠ '/')).reverse
  if head.all (· = '/') then head else (head.reverse.dropWhile (· = '/')).reverse

/-- The calls of shutil.copy that a run makes, the last one possibly in vain, and how it ends. -/
structure Outcome (σ : Type) where
  copies : List Copy
  result : Except PyErr σ

section Run
variable {σ : Type} (os : System σ) (readlink : Str → Option Str) (opdir baseDir : Str)

def prepare (line : Str) (s : σ) : Except PyErr (Copy × σ) := do
  let dirName ← destination readlink opdir baseDir line
  let s ← os.makedirs (dirname dirName) s
  .ok (⟨line, dirName⟩, s)

def copyHeaders : List Str → σ → Outcome σ
  | [], s => ⟨[], .ok s⟩
  | line :: lines, s =>
    if endswith (remove '\n' line) hExt then
      match prepare os readlink opdir baseDir (remove '\n' line) s with
      | .error e => ⟨[], .error e⟩
      | .ok (c, s) =>
        match os.copy c.line c.dirName s with
        | .error e => ⟨[c], .error e⟩
        | .ok s => ⟨c :: (copyHeaders lines s).copies, (copyHeaders lines s).result⟩
    else copyHeaders lines s

def copyIncludeFiles (fs : FS) (iFile : Str) (s : σ) : Outcome σ :=
  match openLines fs iFile with
  | .error e => ⟨[], .error e⟩
  | .ok lines => copyHeaders os readlink opdir baseDir lines s

end Run

def headersOf (lines : List Str) : List Str :=
  (lines.map (remove '\n')).filter fun line => endswith line hExt

/-- The canonical path of the header is base_dir followed by rel. -/
def Under (readlink : Str → Option Str) (baseDir line rel : Str) : Prop :=
  readlink line = some (baseDir ++ rel) ∧ rel.head? = some '/'

/-- The destination of every header below base_dir keeps its relative path, and two of them have
two destinations. -/
def PathsKept (readlink : Str → Option Str) (opdir baseDir : Str) (headers : List Str) : Prop :=
  (∀ h ∈ headers, ∀ rel, Under readlink baseDir h rel →
      destination readlink opdir baseDir h = .ok (opdir ++ '/' :: rel)) ∧
    ∀ h ∈ headers, ∀ h' ∈ headers, ∀ rel rel', Under readlink baseDir h rel →
      Under readlink baseDir h' rel' → rel ≠ rel' →
      ∃ d d', destination readlink opdir baseDir h = .ok d ∧
        destination readlink opdir baseDir h' = .ok d' ∧ d ≠ d'

theorem headerPath_iff (baseDir rel : Str) :
    headerPath (baseDir ++ rel) baseDir = .ok rel ↔ ¬ baseDir <:+: rel := by
  by_cases h : baseDir = []
  · simp [headerPath, h]
  have hne : splitSep baseDir rel ≠ [] := splitSepFrom_ne_nil baseDir 0 [] rel
  rw [headerPath, if_neg h, splitSep_append h, List.getLast?_cons_of_ne_nil hne]
  constructor
  · intro hp hin
    cases hl : (splitSep baseDir rel).getLast? with
    | none => simp [hl] at hp
    | some path =>
      simp only [hl, Except.ok.injEq] at hp
      have hlt := length_last_splitSepFrom h hin hl
      rw [hp, List.length_nil, Nat.zero_add] at hlt
      exact absurd hlt (Nat.lt_irrefl _)
  · intro hno
    rw [splitSep, splitSepFrom_none [] rel hno]
    rfl

section Destination
variable {readlink : Str → Option Str} {opdir baseDir : Str}

theorem destination_iff {line rel : Str} (h : Under readlink baseDir line rel) :
    destination readlink opdir baseDir line = .ok (opdir ++ '/' :: rel) ↔ ¬ baseDir <:+: rel := by
  rw [← headerPath_iff, destination, h.1]
  simp only [bind_eq_ok, Except.ok.injEq, List.append_cancel_left_eq, List.cons.injEq, true_and,
    exists_eq_right]

theorem pathsKept_iff (headers : List Str) :
    PathsKept readlink opdir baseDir headers ↔
      ∀ h ∈ headers, ∀ rel, Under readlink baseDir h rel → ¬ baseDir <:+: rel := by
  constructor
  · intro hkept h hm rel hu
    exact (destination_iff hu).mp (hkept.1 h hm rel hu)
  · intro hcond
    have hdest : ∀ h ∈ headers, ∀ rel, Under readlink baseDir h rel →
        destination readlink opdir baseDir h = .ok (opdir ++ '/' :: rel) :=
      fun h hm rel hu => (destination_iff hu).mpr (hcond h hm rel hu)
    refine ⟨hdest, fun h hm h' hm' rel rel' hu hu' hne => ?_⟩
    refine ⟨_, _, hdest h hm rel hu, hdest h' hm' rel' hu', fun he => hne ?_⟩
    rw [List.append_cancel_left_eq, List.cons.injEq] at he
    exact he.2

end Destination

section Loop
variable {σ : Type} (os : System σ) (readlink : Str → Option Str) (opdir baseDir : Str)

theorem headersOf_cons (line : Str) (lines : List Str) :
    headersOf (line :: lines) =
      if endswith (remove '\n' line) hExt then remove '\n' line :: headersOf lines
      else headersOf lines := by
  rw [headersOf, List.map_cons, List.filter_cons]
  rfl

theorem prepare_ok {line : Str} {s s' : σ} {c : Copy}
    (h : prepare os readlink opdir baseDir line s = .ok (c, s')) :
    c.line = line ∧ destination readlink opdir baseDir line = .ok c.dirName := by
  simp only [prepare, bind_eq_ok, Except.ok.injEq, Prod.mk.injEq] at h
  obtain ⟨dirName, hd, s₁, _, hc, _⟩ := h
  rw [← hc]
  exact ⟨rfl, hd⟩

/-- However the run ends, shutil.copy is called for the headers in order, each with its destination;
if it returns, for all of them. -/
theorem copyHeaders_calls (lines : List Str) (s : σ) :
    (∃ rest, headersOf lines =
        (copyHeaders os readlink opdir baseDir lines s).copies.map Copy.line ++ rest ∧
      ∀ s', (copyHeaders os readlink opdir baseDir lines s).result = .ok s' → rest = []) ∧
    ∀ c ∈ (copyHeaders os readlink opdir baseDir lines s).copies,
      destination readlink opdir baseDir c.line = .ok c.dirName := by
  induction lines generalizing s with
  | nil => exact ⟨⟨[], rfl, fun _ _ => rfl⟩, by simp [copyHeaders]⟩
  | cons line lines ih =>
    rw [headersOf_cons, copyHeaders]
    cases hh : endswith (remove '\n' line) hExt with
    | false => exact ih s
    | true =>
      rw [if_pos rfl, if_pos rfl]
      cases hp : prepare os readlink opdir baseDir (remove '\n' line) s with
      | error e => exact ⟨⟨_, rfl, fun s' h => by cases h⟩, by simp⟩
      | ok x =>
        obtain ⟨c, s₁⟩ := x
        obtain ⟨hline, hdest⟩ := prepare_ok os readlink opdir baseDir hp
        rw [← hline] at hdest ⊢
        dsimp only
        cases os.copy c.line c.dirName s₁ with
        | error e => exact ⟨⟨headersOf lines, rfl, fun s' h => by cases h⟩, by simpa using hdest⟩
        | ok s₂ =>
          obtain ⟨⟨rest, hrest, hall⟩, hcopies⟩ := ih s₂
          exact ⟨⟨rest, congrArg (c.line :: ·) hrest, hall⟩,
            List.forall_mem_cons.mpr ⟨hdest, hcopies⟩⟩

/-- For every base_dir and every list of files: shutil.copy is called for the headers of the list in
order, for all of them if the run returns, each with its destination. The headers below base_dir
have destinations with their relative paths, different headers different ones, if and only if
base_dir does not occur in the relative path of any of them. -/
theorem header_paths_kept_iff (fs : FS) (iFile t : Str) (hfile : fs iFile = .text t) (s : σ) :
    (∃ rest, headersOf (readlines (universalNewlines t)) =
        (copyIncludeFiles os readlink opdir baseDir fs iFile s).copies.map Copy.line ++ rest ∧
      ∀ s', (copyIncludeFiles os readlink opdir baseDir fs iFile s).result = .ok s' → rest = []) ∧
    (∀ c ∈ (copyIncludeFiles os readlink opdir baseDir fs iFile s).copies,
      destination readlink opdir baseDir c.line = .ok c.dirName) ∧
    (PathsKept readlink opdir baseDir (headersOf (readlines (universalNewlines t))) ↔
      ∀ h ∈ headersOf (readlines (universalNewlines t)), ∀ rel, Under readlink baseDir h rel →
        ¬ baseDir <:+: rel) := by
  have hrun : copyIncludeFiles os readlink opdir baseDir fs iFile s =
      copyHeaders os readlink opdir baseDir (readlines (universalNewlines t)) s := by
    rw [copyIncludeFiles, openLines, hfile]
  rw [hrun, ← and_assoc]
  exact ⟨copyHeaders_calls os readlink opdir baseDir _ s, pathsKept_iff _⟩

end Loop

/-- Files under their paths; every directory can be made, and only files can be copied. -/
def store : System (OrderedDict Str Str) where
  makedirs _ files := .ok files
  copy src dst files :=
    match files.get? src with
    | none => .error .osError
    | some text => .ok (files.set dst text)

def noFiles : OrderedDict Str Str := .empty

def keptList : Str := "/p/b.h\n/p/a.c\n/q/p/c.h\n".toList

def keptFiles : OrderedDict Str Str :=
  (noFiles.set "/p/b.h".toList "int b;".toList).set "/q/p/c.h".toList "int c;".toList

theorem header_paths_kept_iff_two :
    let run := copyIncludeFiles store some "out".toList "/p".toList
      (filesOf [("cscope.files".toList, keptList)]) "cscope.files".toList keptFiles
    (∃ rest, headersOf (readlines (universalNewlines keptList)) =
        run.copies.map Copy.line ++ rest ∧ ∀ s', run.result = .ok s' → rest = []) ∧
      (∀ c ∈ run.copies, destination some "out".toList "/p".toList c.line = .ok c.dirName) ∧
      (PathsKept some "out".toList "/p".toList
          (headersOf (readlines (universalNewlines keptList))) ↔
        ∀ h ∈ headersOf (readlines (universalNewlines keptList)), ∀ rel,
          Under some "/p".toList h rel → ¬ "/p".toList <:+: rel) :=
  header_paths_kept_iff store some "out".toList "/p".toList
    (filesOf [("cscope.files".toList, keptList)]) "cscope.files".toList keptList rfl keptFiles

def listText : Str := "/a/b.h\n/a/x/a/b.h\n".toList

def listedFiles : OrderedDict Str Str :=
  (noFiles.set "/a/b.h".toList "int b;".toList).set "/a/x/a/b.h".toList "int x;".toList

/-- Both headers are copied to out//b.h, the second over the first. -/
theorem headers_share_destination :
    Under some "/a".toList "/a/b.h".toList "/b.h".toList ∧
      Under some "/a".toList "/a/x/a/b.h".toList "/x/a/b.h".toList ∧
      (∃ files, copyIncludeFiles store some "out".toList "/a".toList
          (filesOf [("cscope.files".toList, listText)]) "cscope.files".toList listedFiles =
        ⟨[⟨"/a/b.h".toList, "out//b.h".toList⟩, ⟨"/a/x/a/b.h".toList, "out//b.h".toList⟩],
          .ok files⟩ ∧
        files.get? "out//b.h".toList = some "int x;".toList ∧
        files.get? "out//x/a/b.h".toList = none) ∧
      ¬ PathsKept some "out".toList "/a".toList
        (headersOf (readlines (universalNewlines listText))) := by
  have hunder : Under some "/a".toList "/a/x/a/b.h".toList "/x/a/b.h".toList := ⟨rfl, rfl⟩
  refine ⟨⟨rfl, rfl⟩, hunder, ⟨_, rfl, by decide +kernel, by decide +kernel⟩, fun hkept => ?_⟩
  have hdest := hkept.1 "/a/x/a/b.h".toList (by decide +kernel) _ hunder
  rw [destination_iff hunder] at hdest
  exact hdest ⟨"/x".toList, "/b.h".toList, by decide +kernel⟩

end OpenedExtraction.CopyHeaders
