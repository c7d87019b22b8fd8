import OpenedExtraction.OwnLines

/-! What addDefines leaves behind over whole runs: the names that it has recorded and the
wrappers that it has opened and closed. -/
namespace OpenedExtraction.DefineRuns
open OpenedExtraction.PyText OpenedExtraction.Pieces OpenedExtraction.AddDefines
open OpenedExtraction.OwnLines

def lineNames (lines : List Str) : List Str :=
  lines.filterMap fun line => if contains defineText line then defineKey line else none

def fileNames (fs : FS) (readlink : Str → Option Str) (cFiles : List Str) : List Str :=
  cFiles.flatMap fun cFile => lineNames (sourceOf fs readlink cFile)

section Names
variable {fs : FS} {readlink : Str → Option Str} {fullLine : Str} {lines ns : List Str}

theorem lineNames_append (lines : List Str) (line : Str) :
    lineNames (lines ++ [line]) =
      lineNames lines ++ if contains defineText line then (defineKey line).toList else [] := by
  rw [lineNames, List.filterMap_append]
  cases hd : contains defineText line with
  | false => simp [hd, lineNames]
  | true => cases hk : defineKey line <;> simp [hd, hk, lineNames]

theorem tally_line {s s' : LineState} {line : Str} (ht : Tally ns s.acc)
    (h : addDefineLine fullLine s line = .ok s') :
    Tally (ns ++ if contains defineText line then (defineKey line).toList else []) s'.acc := by
  obtain ⟨hcopy, rfl⟩ | ⟨_, hd, key, hk, rfl⟩ | ⟨_, hd, _, _, rfl⟩ := addDefineLine_cases h
  · rw [copied, Bool.or_eq_false_iff] at hcopy
    rw [hcopy.1]
    simpa using ht
  · rw [hd, hk, if_pos rfl]
    cases continues line with
    | true => exact (ht.record key).write _
    | false => exact (ht.record key).write _
  · rw [hd, if_neg (by simp), List.append_nil]
    cases continues line with
    | true => exact ht.write _
    | false => exact ht.write _

theorem tally_lines {s s' : LineState} (ht : Tally ns s.acc)
    (h : lines.foldlM (addDefineLine fullLine) s = .ok s') :
    Tally (ns ++ lineNames lines) s'.acc := by
  refine foldlM_passed (fun passed s => Tally (ns ++ lineNames passed) s.acc) ?_ h ?_
  · intro passed line s₁ s₂ _ ht₁ h₁
    rw [lineNames_append, ← List.append_assoc]
    exact tally_line ht₁ h₁
  · simpa [lineNames] using ht

theorem tally_files {cFiles : List Str} {d d' : Defines} (ht : Tally ns d)
    (h : cFiles.foldlM (addDefines fs readlink) d = .ok d') :
    Tally (ns ++ fileNames fs readlink cFiles) d' := by
  refine foldlM_passed (fun passed d => Tally (ns ++ fileNames fs readlink passed) d) ?_ h ?_
  · intro passed cFile d₁ d₂ _ ht₁ h₁
    obtain ⟨s, hs, rfl, _⟩ := addDefines_ok h₁
    have hfile : Tally (ns ++ fileNames fs readlink passed)
        (LineState.mk d₁ false [] 0).acc := ht₁
    rw [fileNames, List.flatMap_append, List.flatMap_singleton, ← List.append_assoc]
    exact tally_lines hfile hs
  · simpa [fileNames] using ht

theorem addDefineLine_returns_iff (s : LineState) (line : Str) :
    (∃ s', addDefineLine fullLine s line = .ok s') ↔
      (contains defineText line = true → ∃ key, defineKey line = some key) := by
  constructor
  · intro h hd
    obtain ⟨s', h⟩ := h
    exact defineKey_of_ok hd h
  · intro hkey
    cases hcopy : copied s.multi line with
    | false => exact ⟨_, addDefineLine_skip hcopy⟩
    | true =>
      cases hd : contains defineText line with
      | true =>
        obtain ⟨key, hk⟩ := hkey hd
        rw [addDefineLine_define hd hk, ← apply_ite Except.ok]
        exact ⟨_, rfl⟩
      | false =>
        simp only [copied, hd, Bool.false_or, Bool.and_eq_true, decide_eq_true_eq] at hcopy
        rw [addDefineLine_continued hd hcopy.2 hcopy.1, ← apply_ite Except.ok]
        exact ⟨_, rfl⟩

/-- A file that addDefines reads to its end: every #define line has a name. -/
def Processed (fs : FS) (readlink : Str → Option Str) (cFile : Str) : Prop :=
  ∃ fullLine lines, readlink cFile = some fullLine ∧ openLines fs fullLine = .ok lines ∧
    ∀ line ∈ lines, contains defineText line = true → ∃ key, defineKey line = some key

theorem addDefines_returns_iff (d : Defines) (cFile : Str) :
    (∃ d', addDefines fs readlink d cFile = .ok d') ↔ Processed fs readlink cFile := by
  rw [addDefines, Processed]
  cases hl : readlink cFile with
  | none => simp
  | some fullLine =>
    have hlines : ∀ lines : List Str,
        (∃ s, lines.foldlM (addDefineLine fullLine) ⟨d, false, [], 0⟩ = .ok s) ↔
        ∀ line ∈ lines, contains defineText line = true → ∃ key, defineKey line = some key :=
      fun lines => foldlM_returns_iff addDefineLine_returns_iff lines _
    simp only [bind_eq_ok, Option.some.injEq, ← hlines]
    constructor
    · intro h
      obtain ⟨d', lines, ho, s, hs, _⟩ := h
      exact ⟨fullLine, lines, rfl, ho, s, hs⟩
    · intro h
      obtain ⟨_, lines, rfl, ho, s, hs⟩ := h
      exact ⟨s.acc, lines, ho, s, hs, rfl⟩

end Names

/-- After a run over any files the first table has the names that occur and the second one those
that occur at least twice; a run over the files in another order gives the same keys. -/
theorem recorded_names_exact (fs : FS) (readlink : Str → Option Str) (cFiles : List Str)
    (d : Defines) (h : cFiles.foldlM (addDefines fs readlink) .empty = .ok d) :
    (∀ n, n ∈ d.names.keys ↔ 1 ≤ (fileNames fs readlink cFiles).count n) ∧
      (∀ n, n ∈ d.dups.keys ↔ 2 ≤ (fileNames fs readlink cFiles).count n) ∧
      ∀ cFiles' : List Str, cFiles'.Perm cFiles →
        ∃ d', cFiles'.foldlM (addDefines fs readlink) .empty = .ok d' ∧
          (∀ n, n ∈ d'.names.keys ↔ n ∈ d.names.keys) ∧
          ∀ n, n ∈ d'.dups.keys ↔ n ∈ d.dups.keys := by
  have ht := tally_files tally_empty h
  rw [List.nil_append] at ht
  refine ⟨ht.names, ht.dups, fun cFiles' hp => ?_⟩
  have hprocessed := (foldlM_returns_iff addDefines_returns_iff cFiles _).mp ⟨d, h⟩
  obtain ⟨d', h'⟩ := (foldlM_returns_iff addDefines_returns_iff cFiles' .empty).mpr
    fun f hf => hprocessed f (hp.mem_iff.mp hf)
  have ht' := tally_files tally_empty h'
  rw [List.nil_append] at ht'
  have hcount : ∀ n, (fileNames fs readlink cFiles').count n =
      (fileNames fs readlink cFiles).count n := fun n => (hp.flatMap_right _).count_eq n
  refine ⟨d', h', fun n => ?_, fun n => ?_⟩
  · rw [ht'.names, ht.names, hcount]
  · rw [ht'.dups, ht.dups, hcount]

def twoSources : FS := filesOf [("a.c".toList, "#define A 1\n#define B 2\n".toList),
  ("b.c".toList, "#define A \\\n#define C \\\n3\n".toList)]

def sources : List Str := ["a.c".toList, "b.c".toList]

theorem recorded_names_exact_twoSources :
    ∃ d, sources.foldlM (addDefines twoSources some) .empty = .ok d ∧
      "A".toList ∈ d.dups.keys ∧ "B".toList ∈ d.names.keys ∧ "B".toList ∉ d.dups.keys ∧
      ∃ d', sources.reverse.foldlM (addDefines twoSources some) .empty = .ok d' ∧
        "A".toList ∈ d'.dups.keys := by
  have hrun : ∃ d, sources.foldlM (addDefines twoSources some) .empty = .ok d := ⟨_, rfl⟩
  obtain ⟨d, h⟩ := hrun
  obtain ⟨hnames, hdups, hperm⟩ := recorded_names_exact twoSources some sources d h
  have ha : "A".toList ∈ d.dups.keys := (hdups _).mpr (by decide +kernel)
  obtain ⟨d', h', _, hdups'⟩ := hperm sources.reverse (List.reverse_perm sources)
  exact ⟨d, h, ha, (hnames _).mpr (by decide +kernel), fun hb =>
    absurd ((hdups _).mp hb) (by decide +kernel), d', h', (hdups' _).mpr ha⟩

def opens (ps : List Piece) : Nat := ps.countP fun p => p.directive && ifndefText.isPrefixOf p.text

def closes (ps : List Piece) : Nat := ps.countP fun p => p.directive && endifText.isPrefixOf p.text

/-- The lines with a continued #define that are read while a macro is continued. -/
def nestedFrom (fullLine : Str) : LineState → List Str → Nat
  | _, [] => 0
  | s, line :: lines =>
    (if contains defineText line && continues line && s.multi then 1 else 0) +
      match addDefineLine fullLine s line with
      | .ok s' => nestedFrom fullLine s' lines
      | .error _ => 0

section Count
variable (t key : Str) (ps qs : List Piece)

@[simp] theorem opens_nil : opens [] = 0 := rfl

@[simp] theorem closes_nil : closes [] = 0 := rfl

@[simp] theorem opens_append : opens (ps ++ qs) = opens ps + opens qs := List.countP_append

@[simp] theorem closes_append : closes (ps ++ qs) = closes ps + closes qs := List.countP_append

@[simp] theorem opens_plain : opens (plain t :: ps) = opens ps :=
  List.countP_cons_of_neg (by simp)

@[simp] theorem closes_plain : closes (plain t :: ps) = closes ps :=
  List.countP_cons_of_neg (by simp)

@[simp] theorem opens_ifndef : opens (directive (ifndefLine key) :: ps) = opens ps + 1 :=
  List.countP_cons_of_pos rfl

@[simp] theorem closes_ifndef : closes (directive (ifndefLine key) :: ps) = closes ps :=
  List.countP_cons_of_neg Bool.noConfusion

@[simp] theorem opens_endif : opens (directive (endifLine key) :: ps) = opens ps :=
  List.countP_cons_of_neg Bool.noConfusion

@[simp] theorem closes_endif : closes (directive (endifLine key) :: ps) = closes ps + 1 :=
  List.countP_cons_of_pos rfl

end Count

section Balance
variable {fullLine line : Str} {s s' : LineState}

/-- What one line opens is what it closes, leaves open or leaves nested. -/
theorem linePieces_balance (h : addDefineLine fullLine s line = .ok s') :
    opens (linePieces fullLine s line) + s.multi.toNat =
      closes (linePieces fullLine s line) + s'.multi.toNat +
        if contains defineText line && continues line && s.multi then 1 else 0 := by
  obtain ⟨hcopy, rfl⟩ | ⟨_, hd, key, hk, rfl⟩ | ⟨_, hd, hb, hm, rfl⟩ := addDefineLine_cases h
  · rw [linePieces_other hcopy]
    rw [copied, Bool.or_eq_false_iff] at hcopy
    simp [hcopy.1]
  · rw [linePieces_define hd hk]
    cases hc : continues line with
    | true =>
      cases hm : s.multi with
      | true => simp [hd]
      | false => simp
    | false => simp [Nat.add_comm]
  · rw [linePieces_continued hd hb hm]
    cases hc : continues line with
    | true => simp [hd]
    | false => simp [hd, hm]

theorem closes_mono {ps qs : List Piece} (h : ps <+: qs) : closes ps ≤ closes qs :=
  h.sublist.countP_le

theorem linePieces_bounded (h : addDefineLine fullLine s line = .ok s') {before : List Piece}
    (hp : before <+: linePieces fullLine s line) :
    closes before ≤ opens before + s.multi.toNat := by
  obtain ⟨hcopy, _⟩ | ⟨_, hd, key, hk, _⟩ | ⟨_, hd, hb, hm, _⟩ := addDefineLine_cases h
  · rw [linePieces_other hcopy, List.prefix_nil] at hp
    simp [hp]
  · rw [linePieces_define hd hk, List.cons_append, List.cons_append] at hp
    cases List.prefix_cons_iff.mp hp with
    | inl hnil => simp [hnil]
    | inr hcons =>
      obtain ⟨ps, rfl, hps⟩ := hcons
      cases List.prefix_cons_iff.mp hps with
      | inl hnil => simp [hnil]
      | inr hcons =>
        -- the #ifndef has been written, and at most one #endif comes after it
        obtain ⟨qs, rfl, hqs⟩ := hcons
        have hle : closes qs ≤ 1 :=
          (closes_mono hqs).trans (by cases continues line <;> simp)
        rw [closes_plain, closes_ifndef, opens_plain, opens_ifndef]
        omega
  · rw [linePieces_continued hd hb hm] at hp
    have hle : closes before ≤ 1 :=
      (closes_mono hp).trans (by cases continues line <;> simp)
    rw [hm, Bool.toNat_true]
    omega

theorem linesPieces_balance {lines : List Str}
    (h : lines.foldlM (addDefineLine fullLine) s = .ok s') :
    opens (linesPieces fullLine s lines) + s.multi.toNat =
      closes (linesPieces fullLine s lines) + s'.multi.toNat + nestedFrom fullLine s lines := by
  induction lines generalizing s with
  | nil =>
    rw [foldlM_nil_inv h]
    simp [linesPieces, nestedFrom]
  | cons line lines ih =>
    obtain ⟨s₁, h₁, h⟩ := foldlM_cons_inv h
    have hline := linePieces_balance h₁
    have hrest := ih h
    rw [linesPieces_cons h₁, nestedFrom, h₁, opens_append, closes_append]
    simp only
    omega

theorem linesPieces_bounded {lines : List Str}
    (h : lines.foldlM (addDefineLine fullLine) s = .ok s') {before : List Piece}
    (hp : before <+: linesPieces fullLine s lines) :
    closes before ≤ opens before + s.multi.toNat := by
  induction lines generalizing s before with
  | nil =>
    rw [linesPieces, List.prefix_nil] at hp
    simp [hp]
  | cons line lines ih =>
    obtain ⟨s₁, h₁, h⟩ := foldlM_cons_inv h
    rw [linesPieces_cons h₁] at hp
    cases List.prefix_or_prefix_of_prefix hp (List.prefix_append _ _) with
    | inl hin => exact linePieces_bounded h₁ hin
    | inr hout =>
      obtain ⟨rest, rfl⟩ := hout
      have hline := linePieces_balance h₁
      have hrest := ih h ((List.prefix_append_right_inj _).mp hp)
      rw [opens_append, closes_append]
      omega

theorem linesPieces_append {lines rest : List Str}
    (h : lines.foldlM (addDefineLine fullLine) s = .ok s') :
    linesPieces fullLine s (lines ++ rest) =
      linesPieces fullLine s lines ++ linesPieces fullLine s' rest := by
  induction lines generalizing s with
  | nil =>
    rw [foldlM_nil_inv h]
    rfl
  | cons line lines ih =>
    obtain ⟨s₁, h₁, h⟩ := foldlM_cons_inv h
    rw [List.cons_append, linesPieces_cons h₁, linesPieces_cons h₁, ih h, List.append_assoc]

end Balance

/-- For every call of addDefines that returns: at every point of the writing there are at most as
many wrapper #endif lines as wrapper #ifndef lines, and after each line of the file the difference
is one if a macro is continued, and one for each #define line that was continued inside another
macro. -/
theorem wrappers_accounted (fs : FS) (readlink : Str → Option Str) (d d' : Defines) (cFile : Str)
    (h : addDefines fs readlink d cFile = .ok d') :
    ∃ fullLine, readlink cFile = some fullLine ∧
      d'.text = d.text ++
        textOf (linesPieces fullLine ⟨d, false, [], 0⟩ (sourceOf fs readlink cFile)) ∧
      (∀ before, before <+: linesPieces fullLine ⟨d, false, [], 0⟩ (sourceOf fs readlink cFile) →
        closes before ≤ opens before) ∧
      ∀ done rest, sourceOf fs readlink cFile = done ++ rest →
        ∃ s, done.foldlM (addDefineLine fullLine) ⟨d, false, [], 0⟩ = .ok s ∧
          s.acc.text = d.text ++ textOf (linesPieces fullLine ⟨d, false, [], 0⟩ done) ∧
          linesPieces fullLine ⟨d, false, [], 0⟩ done <+:
            linesPieces fullLine ⟨d, false, [], 0⟩ (sourceOf fs readlink cFile) ∧
          opens (linesPieces fullLine ⟨d, false, [], 0⟩ done) =
            closes (linesPieces fullLine ⟨d, false, [], 0⟩ done) + (if s.multi then 1 else 0) +
              nestedFrom fullLine ⟨d, false, [], 0⟩ done := by
  obtain ⟨s', hs', hacc, _⟩ := addDefines_ok h
  cases hl : readlink cFile with
  | none => simp [addDefines, hl] at h
  | some fullLine =>
    rw [hl, Option.getD_some] at hs'
    refine ⟨fullLine, rfl, ?_, fun before hp => linesPieces_bounded hs' hp, fun done rest hlines => ?_⟩
    · rw [← hacc, linesPieces_text hs']
    · rw [hlines, List.foldlM_append, bind_eq_ok] at hs'
      obtain ⟨s, hs, _⟩ := hs'
      have hsplit : linesPieces fullLine ⟨d, false, [], 0⟩ done <+:
          linesPieces fullLine ⟨d, false, [], 0⟩ (sourceOf fs readlink cFile) := by
        rw [hlines, linesPieces_append hs]
        exact List.prefix_append _ _
      refine ⟨s, hs, linesPieces_text hs, hsplit, ?_⟩
      have hbalance := linesPieces_balance hs
      rw [Bool.toNat_false, Nat.add_zero] at hbalance
      rw [hbalance]
      cases s.multi <;> rfl

theorem wrappers_accounted_nested :
    ∃ d', addDefines twoSources some .empty "b.c".toList = .ok d' ∧
      ∃ fullLine, some "b.c".toList = some fullLine ∧
        d'.text = Defines.empty.text ++ textOf (linesPieces fullLine ⟨.empty, false, [], 0⟩
          (sourceOf twoSources some "b.c".toList)) ∧
        (∀ before, before <+: linesPieces fullLine ⟨.empty, false, [], 0⟩
          (sourceOf twoSources some "b.c".toList) → closes before ≤ opens before) ∧
        ∀ done rest, sourceOf twoSources some "b.c".toList = done ++ rest →
          ∃ s, done.foldlM (addDefineLine fullLine) ⟨.empty, false, [], 0⟩ = .ok s ∧
            s.acc.text = Defines.empty.text ++
              textOf (linesPieces fullLine ⟨.empty, false, [], 0⟩ done) ∧
            linesPieces fullLine ⟨.empty, false, [], 0⟩ done <+:
              linesPieces fullLine ⟨.empty, false, [], 0⟩
                (sourceOf twoSources some "b.c".toList) ∧
            opens (linesPieces fullLine ⟨.empty, false, [], 0⟩ done) =
              closes (linesPieces fullLine ⟨.empty, false, [], 0⟩ done) +
                (if s.multi then 1 else 0) +
                nestedFrom fullLine ⟨.empty, false, [], 0⟩ done := by
  have hrun : ∃ d', addDefines twoSources some .empty "b.c".toList = .ok d' := ⟨_, rfl⟩
  obtain ⟨d', h⟩ := hrun
  exact ⟨d', h, wrappers_accounted twoSources some .empty d' "b.c".toList h⟩

/-- The #define of C inside the macro A leaves one wrapper open. -/
example : nestedFrom "b.c".toList ⟨.empty, false, [], 0⟩ (sourceOf twoSources some "b.c".toList) =
    1 := by decide +kernel

end OpenedExtraction.DefineRuns
