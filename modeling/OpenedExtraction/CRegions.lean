import OpenedExtraction.PreprocessorMap
import OpenedExtraction.NestedGroups

/-! The conditional groups of a C file, and on which files the region scanner finds
exactly them. No comment or line continuation spans a directive here, so that a directive
is a matter of its own line. -/
namespace OpenedExtraction.CRegions
open OpenedExtraction.PyText OpenedExtraction.Nesting OpenedExtraction.PreprocessorMap

inductive CKind where
  | ifnz | ifdef | ifndef | elif | els | endif
  deriving DecidableEq, Repr

def CKind.all : List CKind := [.ifnz, .ifdef, .ifndef, .elif, .els, .endif]

def CKind.word : CKind → Str
  | .ifnz => "if".toList
  | .ifdef => "ifdef".toList
  | .ifndef => "ifndef".toList
  | .elif => "elif".toList
  | .els => "else".toList
  | .endif => "endif".toList

def CKind.shape : CKind → Shape
  | .ifnz | .ifdef | .ifndef => .opener
  | .elif | .els => .switch
  | .endif => .closer

def CKind.hasCondition : CKind → Bool
  | .els | .endif => false
  | _ => true

def blank (c : Char) : Bool := c = ' ' || c = '\t'

def endsWord : Str → Bool
  | [] => true
  | '/' :: '/' :: _ => true
  | '/' :: '*' :: _ => true
  | c :: _ => c = '\n' || blank c || c = '('

/-- The conditional directive on a line of C. -/
def cKind (line : Str) : Option CKind :=
  match line.dropWhile blank with
  | '#' :: rest =>
    let body := rest.dropWhile blank
    CKind.all.find? fun k => k.word <+: body ∧ endsWord (body.drop k.word.length)
  | _ => none

def cShape (line : Str) : Shape := ((cKind line).map CKind.shape).getD .plain

/- The stack keeps, for every open conditional, whether its #else has been seen. -/
def nested : List Bool → List (Option CKind) → Bool
  | st, [] => st.isEmpty
  | st, none :: ks => nested st ks
  | st, some .ifnz :: ks | st, some .ifdef :: ks | st, some .ifndef :: ks => nested (false :: st) ks
  | false :: st, some .elif :: ks => nested (false :: st) ks
  | false :: st, some .els :: ks => nested (true :: st) ks
  | _ :: st, some .endif :: ks => nested st ks
  | _, _ => false

def WellNested (lines : List Str) : Prop := nested [] (lines.map cKind) = true

instance (lines : List Str) : Decidable (WellNested lines) := inferInstanceAs (Decidable (_ = _))

/-- A conditional group of C: from its #if, #ifdef, #ifndef, #elif or #else line to the
line before the directive that ends it. -/
def CGroup (lines : List Str) (i j : Nat) : Prop := IsGroup (lines.map cShape) i j

/-- The scanner returns, and its regions are the conditional groups, each listed once. -/
def FindsGroups (lines : List Str) : Prop :=
  ∃ pres, createPreprocessorMap lines = .ok pres ∧ (pres.map Span.bounds).Nodup ∧
    ∀ i j, (i, j) ∈ pres.map Span.bounds ↔ CGroup lines i j

/-- The one spelling the scanner knows: the directive in column one with one space after
the word, and a token after it where the directive has a condition. -/
def Spelled (line : Str) : Prop :=
  ∀ k ∈ cKind line, '#' :: k.word ++ [' '] <+: line ∧
    (k.hasCondition = true → 2 ≤ (split line).length)

theorem cKind_of_text (k : CKind) {line : Str} (h : '#' :: k.word ++ [' '] <+: line) :
    cKind line = some k := by
  obtain ⟨rest, rfl⟩ := h
  cases k <;> rfl

theorem shapeOf_of_text (k : CKind) {line : Str} (h : '#' :: k.word ++ [' '] <+: line) :
    shapeOf line = k.shape ∧ readsName line = k.hasCondition := by
  cases k with
  | ifnz =>
    have hr := roleOf_opener (d := .ifnz) h
    simp [shapeOf, hr, Role.shape, CKind.shape, CKind.hasCondition]
  | ifdef =>
    have hr := roleOf_opener (d := .ifdef) h
    simp [shapeOf, hr, Role.shape, CKind.shape, CKind.hasCondition]
  | ifndef =>
    have hr := roleOf_opener (d := .ifndef) h
    simp [shapeOf, hr, Role.shape, CKind.shape, CKind.hasCondition]
  | elif => simp [shapeOf, roleOf_elif h, Role.shape, CKind.shape, CKind.hasCondition]
  | els => simp [shapeOf, roleOf_else h, Role.shape, CKind.shape, CKind.hasCondition]
  | endif => simp [shapeOf, roleOf_endif h, Role.shape, CKind.shape, CKind.hasCondition]

theorem text_of_shapeOf {line : Str} (h : shapeOf line ≠ .plain ∨ readsName line = true) :
    ∃ k : CKind, '#' :: k.word ++ [' '] <+: line := by
  by_contra hn
  have hp : ∀ p ∈ directiveTexts, ¬ p <+: line := by
    intro p hp hpl
    have hk : ∃ k : CKind, '#' :: k.word ++ [' '] = p := by
      revert p
      have : ∀ p ∈ directiveTexts, ∃ k ∈ CKind.all, '#' :: k.word ++ [' '] = p := by decide
      intro p hp _
      obtain ⟨k, _, hk⟩ := this p hp
      exact ⟨k, hk⟩
    obtain ⟨k, rfl⟩ := hk
    exact hn ⟨k, hpl⟩
  have hr := roleOf_plain line hp
  simp [shapeOf, hr, Role.shape] at h

theorem shapeOf_eq_cShape {line : Str} (h : Spelled line) : shapeOf line = cShape line := by
  cases hk : cKind line with
  | some k =>
    rw [(shapeOf_of_text k (h k hk).1).1]
    simp [cShape, hk]
  | none =>
    by_contra hne
    have hp : shapeOf line ≠ .plain := by simpa [cShape, hk] using hne
    obtain ⟨k, hpre⟩ := text_of_shapeOf (Or.inl hp)
    rw [cKind_of_text k hpre] at hk
    simp at hk

theorem named_of_spelled {line : Str} (h : Spelled line) : Named line := by
  intro hr
  obtain ⟨k, hpre⟩ := text_of_shapeOf (Or.inr hr)
  have hc := (shapeOf_of_text k hpre).2
  exact (h k (cKind_of_text k hpre)).2 (by rw [← hc]; exact hr)

theorem text_of_recognised {line : Str} {k : CKind} (hk : cKind line = some k)
    (h : shapeOf line ≠ .plain) : '#' :: k.word ++ [' '] <+: line := by
  obtain ⟨k', hpre⟩ := text_of_shapeOf (Or.inl h)
  have he : k' = k := Option.some.inj ((cKind_of_text k' hpre).symm.trans hk)
  rw [← he]
  exact hpre

theorem depth_of_nested (st : List Bool) (ks : List (Option CKind)) (h : nested st ks = true) :
    depth st.length (ks.map fun k => (k.map CKind.shape).getD .plain) = some 0 := by
  induction ks generalizing st with
  | nil =>
    have : st = [] := by simpa [nested] using h
    simp [this, depth]
  | cons k ks ih =>
    cases k with
    | none =>
      have hi := ih st (by simpa [nested] using h)
      cases st <;> exact hi
    | some k =>
      cases k with
      | ifnz => exact ih (false :: st) (by simpa [nested] using h)
      | ifdef => exact ih (false :: st) (by simpa [nested] using h)
      | ifndef => exact ih (false :: st) (by simpa [nested] using h)
      | elif => cases st with
        | nil => simp [nested] at h
        | cons b st => cases b with
          | true => simp [nested] at h
          | false => exact ih (false :: st) (by simpa [nested] using h)
      | els => cases st with
        | nil => simp [nested] at h
        | cons b st => cases b with
          | true => simp [nested] at h
          | false => exact ih (true :: st) (by simpa [nested] using h)
      | endif => cases st with
        | nil => simp [nested] at h
        | cons b st => cases b <;> exact ih st (by simpa [nested] using h)

theorem balanced_of_wellNested {lines : List Str} (h : WellNested lines) :
    Balanced (lines.map cShape) := by
  have hd := depth_of_nested [] (lines.map cKind) h
  rw [List.map_map] at hd
  exact hd

theorem bounds_nodup {lines : List Str} {pres : List Region}
    (h : createPreprocessorMap lines = .ok pres) : (pres.map Span.bounds).Nodup := by
  refine List.pairwise_map.mpr ((regions_before h).1.imp ?_)
  intro a b hab heq
  have hl : a.last = b.last := congrArg Prod.snd heq
  have := hab.1
  omega

theorem mem_bounds_iff {lines : List Str} {pres : List Region}
    (h : createPreprocessorMap lines = .ok pres) (i j : Nat) :
    (i, j) ∈ pres.map Span.bounds ↔ IsGroup (lines.map shapeOf) i j := by
  obtain ⟨_, st, hs⟩ := (createPreprocessorMap_ok_iff lines pres).mp h
  rw [scan_mem_iff hs, List.map_map]
  rfl

theorem region_before_end {a rest : List Str} {line : Str} {pres : List Region}
    (h : createPreprocessorMap (a ++ line :: rest) = .ok pres) (he : (shapeOf line).ends = true) :
    ∃ i, (i, a.length) ∈ pres.map Span.bounds := by
  obtain ⟨_, st, hs⟩ := (createPreprocessorMap_ok_iff _ pres).mp h
  rw [List.map_append, List.map_cons] at hs
  obtain ⟨g, hg, hl⟩ := scan_emits hs he
  have hb : g.bounds = (g.first, a.length) := by
    simp only [Span.bounds, hl, List.length_map]
    rw [show 1 + a.length - 1 = a.length from by omega]
  exact ⟨g.first, by rw [← hb]; exact List.mem_map_of_mem hg⟩

theorem findsGroups_of_spelled {lines : List Str} (hw : WellNested lines)
    (h : ∀ l ∈ lines, Spelled l) : FindsGroups lines := by
  have hsh : lines.map shapeOf = lines.map cShape :=
    List.map_congr_left fun l hl => shapeOf_eq_cShape (h l hl)
  have hsc : Scannable lines := by
    refine ⟨fun l hl => named_of_spelled (h l hl), ?_⟩
    rw [hsh, balanced_of_wellNested hw]
    rfl
  obtain ⟨pres, hp⟩ := (scannable_iff lines).mp hsc
  refine ⟨pres, hp, bounds_nodup hp, fun i j => ?_⟩
  rw [mem_bounds_iff hp, hsh]
  rfl

theorem spelled_of_findsGroups {lines : List Str} (hw : WellNested lines)
    (h : FindsGroups lines) : ∀ l ∈ lines, Spelled l := by
  obtain ⟨pres, hp, _, hg⟩ := h
  have hnamed := ((createPreprocessorMap_ok_iff lines pres).mp hp).1
  have hb := balanced_of_wellNested hw
  intro l hl k hk
  obtain ⟨a, rest, hsplit⟩ := List.append_of_mem hl
  have hc : cShape l = k.shape := by
    have hk' : cKind l = some k := hk
    simp [cShape, hk']
  -- the group that starts or ends at the line is a region, so the scanner saw the line
  have hseen : shapeOf l ≠ .plain := by
    have hat : (lines.map shapeOf)[a.length]? = some (shapeOf l) := by rw [hsplit]; simp
    by_cases hst : k.shape.starts = true
    · have hb' : Balanced (a.map cShape ++ cShape l :: rest.map cShape) := by
        rw [hsplit] at hb
        simpa using hb
      obtain ⟨j, hj⟩ := exists_group_of_starts _ _ _ hb' (by rw [hc]; exact hst)
      have hreg : IsGroup (lines.map shapeOf) (a.length + 1) j := by
        rw [← mem_bounds_iff hp, hg, CGroup, hsplit]
        simpa using hj
      obtain ⟨r, hr, hs⟩ := hreg.lines.1
      rw [Nat.add_sub_cancel, hat] at hr
      intro hpl
      rw [← Option.some.inj hr, hpl] at hs
      simp [Shape.starts] at hs
    · have hend : k.shape.ends = true := by
        cases k <;> simp_all [CKind.shape, Shape.starts, Shape.ends]
      have hb' : (depth 0 (a.map cShape ++ cShape l :: rest.map cShape)).isSome := by
        rw [hsplit] at hb
        have he : depth 0 (a.map cShape ++ cShape l :: rest.map cShape) = some 0 := by
          simpa [Nesting.Balanced] using hb
        rw [he]
        rfl
      obtain ⟨i, hi⟩ := exists_group_of_ends _ _ _ hb' (by rw [hc]; exact hend)
      have hreg : IsGroup (lines.map shapeOf) i a.length := by
        rw [← mem_bounds_iff hp, hg, CGroup, hsplit]
        simpa using hi
      obtain ⟨r, hr, he⟩ := hreg.lines.2
      rw [hat] at hr
      intro hpl
      rw [← Option.some.inj hr, hpl] at he
      simp [Shape.ends] at he
  have htext := text_of_recognised hk hseen
  refine ⟨htext, fun hcond => hnamed l hl ?_⟩
  rw [(shapeOf_of_text k htext).2]
  exact hcond

/-- Rewriting an #else or #endif line with a comment to the bare directive, or back, makes
a difference for every file on which the scanner returns: only with the space does a
region end before the line. -/
theorem bare_directive_differs {lines : List Str} {pres pres' : List Region} (k : Nat)
    (w c nl : Str) (hw : w = elsestring ∨ w = endifstring) (hnl : nl = [] ∨ nl = ['\n'])
    (hk : lines[k]? = some (w ++ c)) (h : createPreprocessorMap lines = .ok pres)
    (h' : createPreprocessorMap (lines.set k (w.dropLast ++ nl)) = .ok pres') :
    (∃ i, (i, k) ∈ pres.map Span.bounds) ∧ ∀ i, (i, k) ∉ pres'.map Span.bounds := by
  have hlt : k < lines.length := by
    by_contra hge
    rw [List.getElem?_eq_none (by omega)] at hk
    simp at hk
  constructor
  · have hs : lines = lines.take k ++ (w ++ c) :: lines.drop (k + 1) := by
      rw [List.getElem?_eq_getElem hlt] at hk
      rw [← Option.some.inj hk, ← List.drop_eq_getElem_cons hlt, List.take_append_drop]
    have he : (shapeOf (w ++ c)).ends = true := by
      cases hw with
      | inl hw =>
        rw [hw, shapeOf, (roleOf_else (List.prefix_append elsestring c)).1]
        rfl
      | inr hw =>
        rw [hw, shapeOf, (roleOf_endif (List.prefix_append endifstring c)).1]
        rfl
    rw [hs] at h
    obtain ⟨i, hi⟩ := region_before_end h he
    rw [List.length_take, Nat.min_eq_left hlt.le] at hi
    exact ⟨i, hi⟩
  · intro i hi
    rw [mem_bounds_iff h'] at hi
    obtain ⟨r, hr, he⟩ := hi.lines.2
    have hplain : shapeOf (w.dropLast ++ nl) = .plain := by
      cases hw with
      | inl hw => cases hnl with
        | inl hnl => rw [hw, hnl]; decide
        | inr hnl => rw [hw, hnl]; decide
      | inr hw => cases hnl with
        | inl hnl => rw [hw, hnl]; decide
        | inr hnl => rw [hw, hnl]; decide
    rw [List.getElem?_map, List.getElem?_set_self hlt, Option.map_some, hplain] at hr
    rw [← Option.some.inj hr] at he
    simp [Shape.ends] at he

def IsComment (c : Str) : Prop := "/*".toList <+: c ∨ "//".toList <+: c

/-- For every well nested file the scanner finds C's groups exactly when every conditional
directive has the one spelling it knows. The two spellings of an #else or #endif line
never give the same regions. -/
theorem scanner_agrees_with_c_iff (lines : List Str) (hw : WellNested lines) :
    (FindsGroups lines ↔ ∀ l ∈ lines, Spelled l) ∧
    ∀ (k : Nat) (w c nl : Str) (pres pres' : List Region),
      w = elsestring ∨ w = endifstring → IsComment c → nl = [] ∨ nl = ['\n'] →
      lines[k]? = some (w ++ c) → createPreprocessorMap lines = .ok pres →
      createPreprocessorMap (lines.set k (w.dropLast ++ nl)) = .ok pres' →
      (∃ i, (i, k) ∈ pres.map Span.bounds) ∧ ∀ i, (i, k) ∉ pres'.map Span.bounds := by
  refine ⟨⟨spelled_of_findsGroups hw, findsGroups_of_spelled hw⟩, ?_⟩
  intro k w c nl pres pres' hwd _ hnl hk h h'
  exact bare_directive_differs k w c nl hwd hnl hk h h'

theorem scanner_agrees_with_c_iff_spaced :
    WellNested (readlines "#ifdef A\nint f;\n#endif /* A */\n".toList) ∧
    (FindsGroups (readlines "#ifdef A\nint f;\n#endif /* A */\n".toList) ↔
      ∀ l ∈ readlines "#ifdef A\nint f;\n#endif /* A */\n".toList, Spelled l) :=
  ⟨by decide +kernel, (scanner_agrees_with_c_iff _ (by decide +kernel)).1⟩

/-- The usual bare #endif: C has one group, the scanner does not find it. -/
theorem bare_endif_not_found :
    WellNested (readlines "#ifdef A\nint f;\n#endif\n".toList) ∧
    ¬ FindsGroups (readlines "#ifdef A\nint f;\n#endif\n".toList) := by
  have hw : WellNested (readlines "#ifdef A\nint f;\n#endif\n".toList) := by decide +kernel
  refine ⟨hw, fun h => ?_⟩
  have hs := spelled_of_findsGroups hw h "#endif\n".toList (by decide +kernel) .endif
    (by decide +kernel)
  have hp := hs.1
  revert hp
  decide

end OpenedExtraction.CRegions
