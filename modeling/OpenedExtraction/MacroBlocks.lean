import OpenedExtraction.AddDefines

/-! The blocks that addDefines should write, one for each #define with the physical lines of its
logical line, and the files on which it writes them. -/
namespace OpenedExtraction.MacroBlocks
open OpenedExtraction.PyText OpenedExtraction.AddDefines

/-- Every occurrence of #define starts its line and has a name after a blank. -/
def Directives (lines : List Str) : Prop :=
  ∀ line ∈ lines, contains defineText line = true → ∃ c rest, line = defineText ++ c :: rest ∧
    isspace c = true ∧ split rest ≠ [] ∧ contains defineText rest = false

/- The logical lines of the #define directives from line n on; the second argument is one that is
   still continued. A continued line takes the next line, whatever it holds. -/
def logicalFrom : Nat → Option Block → List Str → List Block
  | _, none, [] => []
  | _, some b, [] => [b]
  | n, none, line :: lines =>
    if contains defineText line then
      let b : Block := ⟨(defineKey line).getD [], n, [line]⟩
      if continues line then logicalFrom (n + 1) (some b) lines
      else b :: logicalFrom (n + 1) none lines
    else logicalFrom (n + 1) none lines
  | n, some b, line :: lines =>
    if continues line then logicalFrom (n + 1) (some (b.extend line)) lines
    else b.extend line :: logicalFrom (n + 1) none lines

def opening (fullLine : Str) (b : Block) : Str := beginComment fullLine b.first ++ ifndefLine b.key

def closing (fullLine : Str) (b : Block) : Str :=
  endifLine b.key ++ endComment b.single fullLine (b.first + b.lines.length - 1)

def continued (b : Block) : Bool := b.lines.any continues

/-- The text is one closed block after the other. A continued macro may have a further line feed;
the closing #endif starts a line. -/
def Emitted (fullLine : Str) : List Block → Str → Prop
  | [], text => text = []
  | b :: bs, text => ∃ extra rest, (extra = [] ∨ extra = ['\n'] ∧ continued b = true) ∧
      EndsLine (b.lines.flatten ++ extra) ∧
      text = opening fullLine b ++ b.lines.flatten ++ extra ++ closing fullLine b ++ rest ∧
      Emitted fullLine bs rest

/-- No line after the first one is blank or mentions #define. -/
def Clean (b : Block) : Prop :=
  ∀ l ∈ b.lines.tail, rstrip l ≠ [] ∧ contains defineText l = false

/-- The logical line is clean and is not cut by the end of the file: its last line is not
continued, and a single line has its line feed. -/
def Whole (b : Block) : Prop :=
  Clean b ∧ (∀ l ∈ b.lines.getLast?, continues l = false) ∧
    (b.lines.length = 1 → EndsLine b.lines.flatten)

theorem clean_one (key line : Str) (n : Nat) : Clean ⟨key, n, [line]⟩ := fun _ hl => by cases hl

theorem copied_of_clean {b : Block} (h : Clean b) : b.copied = b.lines := by
  have hf : (b.lines.drop 1).filter (fun line => rstrip line ≠ []) = b.lines.drop 1 :=
    List.filter_eq_self.mpr fun l hl => by simpa using (h l (by simpa using hl)).1
  rw [Block.copied, hf, List.take_append_drop]

theorem text_eq (fullLine : Str) {b : Block} (h : Clean b) :
    b.text fullLine = opening fullLine b ++ b.lines.flatten ++
      (if b.single then [] else ['\n']) ++ closing fullLine b := by
  simp [Block.text, Block.payload, copied_of_clean h, opening, closing]

theorem contains_cons_space {c : Char} {rest : Str} (hc : isspace c = true)
    (h : contains defineText rest = false) : ¬ defineText <:+: c :: rest := by
  rw [List.infix_cons_iff, not_or]
  constructor
  · intro hp
    have hd : defineText = '#' :: defineText.tail := by decide +kernel
    rw [hd, List.cons_prefix_cons] at hp
    rw [← hp.1] at hc
    revert hc
    decide
  · rwa [← contains_iff, Bool.not_eq_true]

theorem defineKey_isSome {lines : List Str} (hd : Directives lines) {line : Str}
    (hl : line ∈ lines) (hc : contains defineText line = true) :
    ∃ key, defineKey line = some key := by
  obtain ⟨c, rest, rfl, hspace, hne, hno⟩ := hd line hl hc
  have hsplit : splitSep defineText (defineText ++ c :: rest) = [[], c :: rest] := by
    have hcut : splitSep defineText (defineText ++ c :: rest) =
        [] :: splitSepFrom defineText 0 [] (c :: rest) := rfl
    rw [hcut, splitSepFrom_none _ _ (contains_cons_space hspace hno)]
    rfl
  obtain ⟨key, keys, hk⟩ := List.exists_cons_of_ne_nil hne
  refine ⟨key, ?_⟩
  rw [defineKey, hsplit]
  simp [split_blank rest c hspace, hk]

section Loop
variable {fullLine : Str}

theorem beginComment_head (fullLine : Str) (n : Nat) : ∃ r, beginComment fullLine n = '/' :: r :=
  ⟨_, rfl⟩

/-- One line: it returns and writes at the end; a #define line starts with a comment, a blank line
writes nothing, and any other line is copied after a continued one. -/
theorem addDefineLine_writes (fullLine : Str) (s : LineState) {line : Str}
    (hk : contains defineText line = true → ∃ key, defineKey line = some key) :
    ∃ s' w, addDefineLine fullLine s line = .ok s' ∧ s'.acc.text = s.acc.text ++ w ∧
      (contains defineText line = true → ∃ r, w = '/' :: r) ∧
      (rstrip line = [] → w = [] ∧ s'.multi = s.multi) ∧
      (contains defineText line = false → rstrip line ≠ [] → s.multi = true → line <+: w) := by
  cases hd : contains defineText line with
  | true =>
    obtain ⟨key, hkey⟩ := hk hd
    have hblank := rstrip_nil_of_define hd
    obtain ⟨r, hr⟩ := beginComment_head fullLine (s.lineCt + 1)
    rw [addDefineLine_define hd hkey]
    cases hc : continues line with
    | true =>
      refine ⟨_, beginComment fullLine (s.lineCt + 1) ++ ifndefLine key ++ line, rfl,
        by simp only [Defines.write, record_text], ?_, ?_, ?_⟩
      · intro _
        rw [hr]
        exact ⟨_, rfl⟩
      · intro h
        exact absurd h hblank
      · intro h
        cases h
    | false =>
      refine ⟨_, Block.text fullLine ⟨key, s.lineCt + 1, [line]⟩, rfl,
        by simp only [addBlock, Defines.write, record_text], ?_, ?_, ?_⟩
      · intro _
        rw [text_eq fullLine (clean_one key line _), opening, hr]
        exact ⟨_, rfl⟩
      · intro h
        exact absurd h hblank
      · intro h
        cases h
  | false =>
    by_cases hb : rstrip line = []
    · refine ⟨{ s with lineCt := s.lineCt + 1 }, [], ?_, by simp, by simp, by simp, ?_⟩
      · simp [addDefineLine, hb]
      · intro _ h
        exact absurd hb h
    · cases hm : s.multi with
      | false =>
        refine ⟨_, [], addDefineLine_other hd hm, by simp, by simp, by simp [hb], ?_⟩
        intro _ _ h
        cases h
      | true =>
        rw [addDefineLine_continued hd hb hm]
        cases hc : continues line with
        | true =>
          exact ⟨_, line, rfl, rfl, by simp, by simp [hb], fun _ _ _ => List.prefix_rfl⟩
        | false =>
          refine ⟨_, _, rfl, rfl, by simp, by simp [hb], fun _ _ _ => ?_⟩
          simp only [List.append_assoc]
          exact List.prefix_append _ _

theorem foldlM_returns (fullLine : Str) (lines : List Str)
    (hk : ∀ l ∈ lines, contains defineText l = true → ∃ key, defineKey l = some key)
    (s : LineState) :
    ∃ s' w, lines.foldlM (addDefineLine fullLine) s = .ok s' ∧ s'.acc.text = s.acc.text ++ w := by
  induction lines generalizing s with
  | nil => exact ⟨s, [], rfl, by simp⟩
  | cons line lines ih =>
    obtain ⟨s₁, w₁, h₁, hw₁, _⟩ := addDefineLine_writes fullLine s (hk line (by simp))
    obtain ⟨s', w, h, hw⟩ := ih (fun l hl => hk l (List.mem_cons_of_mem line hl)) s₁
    exact ⟨s', w₁ ++ w, foldlM_cons_ok h₁ h, by rw [hw, hw₁, List.append_assoc]⟩

theorem foldlM_after_continued {lines : List Str}
    (hk : ∀ l ∈ lines, contains defineText l = true → ∃ key, defineKey l = some key)
    {s s' : LineState} {w : Str} (hm : s.multi = true)
    (h : lines.foldlM (addDefineLine fullLine) s = .ok s') (hw : s'.acc.text = s.acc.text ++ w) :
    w = [] ∨ (∃ r, w = '/' :: r) ∨ ∃ y ∈ lines, rstrip y ≠ [] ∧ y <+: w := by
  induction lines generalizing s w with
  | nil =>
    rw [foldlM_nil_inv h] at hw
    exact Or.inl (List.self_eq_append_right.mp hw)
  | cons line lines ih =>
    have hk' := fun l hl => hk l (List.mem_cons_of_mem line hl)
    obtain ⟨s₁, w₁, h₁, hw₁, hdef, hblank, hcopy⟩ :=
      addDefineLine_writes fullLine s (hk line (by simp))
    obtain ⟨s₂, w₂, h₂, hw₂⟩ := foldlM_returns fullLine lines hk' s₁
    rw [foldlM_cons_ok h₁ h₂, Except.ok.injEq] at h
    have hsplit : w = w₁ ++ w₂ := by
      rw [← h, hw₂, hw₁, List.append_assoc] at hw
      exact (List.append_cancel_left hw).symm
    by_cases hb : rstrip line = []
    · obtain ⟨hnil, hmulti⟩ := hblank hb
      rw [hnil, List.nil_append] at hsplit
      rw [hsplit]
      obtain hn | hc | hy := ih hk' (hmulti.trans hm) (h ▸ h₂) (h ▸ hw₂)
      · exact Or.inl hn
      · exact Or.inr (Or.inl hc)
      · obtain ⟨y, hy, hyb, hyw⟩ := hy
        exact Or.inr (Or.inr ⟨y, List.mem_cons_of_mem line hy, hyb, hyw⟩)
    · cases hd : contains defineText line with
      | true =>
        obtain ⟨r, hr⟩ := hdef hd
        exact Or.inr (Or.inl ⟨r ++ w₂, by rw [hsplit, hr]; rfl⟩)
      | false =>
        have hp := (hcopy hd hb hm).trans (List.prefix_append w₁ w₂)
        rw [← hsplit] at hp
        exact Or.inr (Or.inr ⟨line, by simp, hb, hp⟩)

end Loop

theorem clean_extend {b : Block} {line : Str} (hne : b.lines ≠ []) :
    Clean (b.extend line) ↔ Clean b ∧ rstrip line ≠ [] ∧ contains defineText line = false := by
  obtain ⟨l, ls, hl⟩ := List.exists_cons_of_ne_nil hne
  rw [Clean, Clean, Block.extend, hl, List.cons_append, List.tail_cons, List.tail_cons,
    List.forall_mem_append, List.forall_mem_singleton]

theorem logicalFrom_some (n : Nat) (b : Block) (lines : List Str) :
    ∃ more bs, logicalFrom n (some b) lines = { b with lines := b.lines ++ more } :: bs := by
  induction lines generalizing n b with
  | nil => exact ⟨[], [], by simp [logicalFrom]⟩
  | cons line lines ih =>
    rw [logicalFrom]
    cases hc : continues line with
    | true =>
      obtain ⟨more, bs, he⟩ := ih (n + 1) (b.extend line)
      refine ⟨line :: more, bs, ?_⟩
      rw [if_pos rfl, he]
      simp [Block.extend]
    | false => exact ⟨[line], _, rfl⟩

theorem logicalFrom_next (n : Nat) (b : Block) (line : Str) (lines : List Str) :
    ∃ more bs, logicalFrom n (some b) (line :: lines) =
      { b with lines := b.lines ++ line :: more } :: bs := by
  rw [logicalFrom]
  cases hc : continues line with
  | true =>
    obtain ⟨more, bs, he⟩ := logicalFrom_some (n + 1) (b.extend line) lines
    refine ⟨more, bs, ?_⟩
    rw [if_pos rfl, he]
    simp [Block.extend]
  | false => exact ⟨[], _, rfl⟩

theorem blocksFrom_of_whole {lines : List Str}
    (hk : ∀ l ∈ lines, contains defineText l = true → ∃ key, defineKey l = some key) :
    (∀ n, (∀ b ∈ logicalFrom n none lines, Whole b) →
      blocksFrom n none lines = some (logicalFrom n none lines)) ∧
    ∀ n b, (∃ l ∈ b.lines.getLast?, continues l = true) →
      (∀ c ∈ logicalFrom n (some b) lines, Whole c) →
      blocksFrom n (some b) lines = some (logicalFrom n (some b) lines) := by
  induction lines with
  | nil =>
    refine ⟨fun n _ => rfl, fun n b hlast hw => ?_⟩
    obtain ⟨l, hl, hc⟩ := hlast
    have hno := (hw b (by simp [logicalFrom])).2.1 l hl
    rw [hc] at hno
    cases hno
  | cons line lines ih =>
    obtain ⟨ihNone, ihSome⟩ := ih fun l hl => hk l (List.mem_cons_of_mem line hl)
    constructor
    · intro n hw
      rw [logicalFrom] at hw ⊢
      cases hd : contains defineText line with
      | false =>
        simp only [hd, Bool.false_eq_true, if_false] at hw
        simpa [blocksFrom, hd] using ihNone (n + 1) hw
      | true =>
        obtain ⟨key, hkey⟩ := hk line (by simp) hd
        simp only [hd, hkey, if_true, Option.getD_some] at hw ⊢
        cases hc : continues line with
        | true =>
          simp only [hc, if_true] at hw
          simpa [blocksFrom, hd, hkey, hc] using
            ihSome (n + 1) ⟨key, n, [line]⟩ ⟨line, rfl, hc⟩ hw
        | false =>
          simp only [hc, Bool.false_eq_true, if_false, List.forall_mem_cons] at hw
          simpa [blocksFrom, hd, hkey, hc] using ihNone (n + 1) hw.2
    · intro n b hlast hw
      have hne : b.lines ≠ [] := by
        obtain ⟨l, hl, _⟩ := hlast
        exact fun he => by simp [he] at hl
      have hcut : contains defineText line = false ∧ rstrip line ≠ [] := by
        obtain ⟨more, bs, he⟩ := logicalFrom_next n b line lines
        have hclean := (hw _ (by rw [he]; exact List.mem_cons_self)).1 line (by
          rw [List.tail_append_of_ne_nil hne]
          simp)
        exact ⟨hclean.2, hclean.1⟩
      rw [logicalFrom] at hw ⊢
      rw [blocksFrom, if_neg (by simp [hcut.1])]
      cases hc : continues line with
      | true =>
        simp only [hc, if_true] at hw ⊢
        simpa using ihSome (n + 1) _ ⟨line, by simp [Block.extend], hc⟩ hw
      | false =>
        simp only [hc, Bool.false_eq_true, if_false, List.forall_mem_cons] at hw ⊢
        rw [if_neg (by simp [hcut.2]), ihNone (n + 1) hw.2]
        rfl

theorem continued_extend {b : Block} (h : continued b = true) (line : Str) :
    continued (b.extend line) = true := by
  simp only [continued, Block.extend, List.any_append, Bool.or_eq_true] at h ⊢
  exact Or.inl h

theorem logicalFrom_continued (lines : List Str) :
    (∀ n, ∀ b ∈ logicalFrom n none lines, b.single = false → continued b = true) ∧
    ∀ n c, continued c = true →
      ∀ b ∈ logicalFrom n (some c) lines, b.single = false → continued b = true := by
  induction lines with
  | nil =>
    refine ⟨fun n b hb => by simp [logicalFrom] at hb, fun n c hc b hb _ => ?_⟩
    rw [logicalFrom, List.mem_singleton] at hb
    rwa [hb]
  | cons line lines ih =>
    obtain ⟨ihNone, ihSome⟩ := ih
    constructor
    · intro n b hb hs
      rw [logicalFrom] at hb
      split at hb
      · dsimp only at hb
        split at hb
        · next hc => exact ihSome (n + 1) _ (by simp [continued, hc]) b hb hs
        · cases List.mem_cons.mp hb with
          | inl he => simp [he, Block.single] at hs
          | inr hm => exact ihNone (n + 1) b hm hs
      · exact ihNone (n + 1) b hb hs
    · intro n c hc b hb hs
      rw [logicalFrom] at hb
      split at hb
      · exact ihSome (n + 1) _ (continued_extend hc line) b hb hs
      · cases List.mem_cons.mp hb with
        | inl he =>
          rw [he]
          exact continued_extend hc line
        | inr hm => exact ihNone (n + 1) b hm hs

theorem emitted_texts (fullLine : Str) (bs : List Block) (hw : ∀ b ∈ bs, Whole b)
    (hc : ∀ b ∈ bs, b.single = false → continued b = true) :
    Emitted fullLine bs (bs.map (Block.text fullLine)).flatten := by
  induction bs with
  | nil => rfl
  | cons b bs ih =>
    rw [List.forall_mem_cons] at hw hc
    refine ⟨if b.single then [] else ['\n'], (bs.map (Block.text fullLine)).flatten, ?_, ?_, ?_,
      ih hw.2 hc.2⟩
    · cases hs : b.single with
      | true => exact Or.inl rfl
      | false => exact Or.inr ⟨rfl, hc.1 hs⟩
    · cases hs : b.single with
      | true =>
        rw [Block.single, decide_eq_true_eq] at hs
        simpa using hw.1.2.2 hs
      | false => exact Or.inr ⟨b.lines.flatten, rfl⟩
    · rw [List.map_cons, List.flatten_cons, text_eq fullLine hw.1.1]

theorem closing_head (fullLine : Str) (b : Block) : ∃ r, closing fullLine b = '#' :: r := ⟨_, rfl⟩

theorem emitted_next {fullLine text line : Str} {n : Nat} {b : Block} {lines : List Str}
    (h : Emitted fullLine (logicalFrom n (some b) (line :: lines)) text) :
    ∃ rest, text = opening fullLine b ++ b.lines.flatten ++ line ++ rest := by
  obtain ⟨more, bs, he⟩ := logicalFrom_next n b line lines
  rw [he] at h
  obtain ⟨extra, rest, _, _, ht, _⟩ := h
  refine ⟨more.flatten ++ extra ++ closing fullLine { b with lines := b.lines ++ line :: more } ++
    rest, ?_⟩
  rw [ht]
  simp only [opening, List.flatten_append, List.flatten_cons, List.append_assoc]

theorem blank_not_prefix {line y w : Str} {lines : List Str} (hr : Rows (line :: lines))
    (hb : rstrip line = []) (hy : y ∈ lines) (hyb : rstrip y ≠ []) (h1 : line <+: w)
    (h2 : y <+: w) : False := by
  rw [rstrip_eq_nil_iff] at hb
  rw [Ne, rstrip_eq_nil_iff] at hyb
  cases List.prefix_or_prefix_of_prefix h1 h2 with
  | inl hp =>
    obtain ⟨z, rfl⟩ := hp
    obtain ⟨body, hline, _⟩ := hr.isLine hy
    by_cases hz : z = []
    · rw [hz, List.append_nil] at hyb
      exact hyb hb
    · -- the line feed of the blank line would stand inside y
      have hm := (hr.tail.mem _ hy).2
      rw [List.dropLast_append_of_ne_nil hz, hline] at hm
      exact hm (by simp)
  | inr hp => exact hyb fun c hc => hb c (hp.subset hc)

theorem pending_text {fullLine : Str} {d : Defines} {b : Block} {s : LineState}
    (h : Pending fullLine d b s) (hclean : Clean b) :
    s.acc.text = d.text ++ (opening fullLine b ++ b.lines.flatten) := by
  rw [h.acc, Defines.write, record_text, opening, copied_of_clean hclean]

theorem emitted_text {fullLine out : Str} {b : Block} {bs : List Block} (hclean : Clean b)
    (hs : b.single = true → continued b = false)
    (h : Emitted fullLine (b :: bs) (b.text fullLine ++ out)) :
    (b.single = true → EndsLine b.lines.flatten) ∧ Emitted fullLine bs out := by
  obtain ⟨extra, rest, hextra, hends, ht, hrest⟩ := h
  have hcut : (if b.single then [] else ['\n']) ++ (closing fullLine b ++ out) =
      extra ++ (closing fullLine b ++ rest) := by
    rw [text_eq fullLine hclean] at ht
    simpa only [List.append_assoc, List.append_cancel_left_eq] using ht
  cases hsingle : b.single with
  | true =>
    have hnil : extra = [] := by
      cases hextra with
      | inl he => exact he
      | inr he =>
        rw [hs hsingle] at he
        cases he.2
    rw [hsingle, if_pos rfl, hnil, List.append_cancel_left_eq, List.append_cancel_left_eq] at hcut
    rw [hnil, List.append_nil] at hends
    rw [hcut]
    exact ⟨fun _ => hends, hrest⟩
  | false =>
    rw [hsingle, if_neg (by simp)] at hcut
    refine ⟨Bool.noConfusion, ?_⟩
    cases hextra with
    | inl he =>
      -- the line feed of the loop is not the start of an #endif
      obtain ⟨r, hr⟩ := closing_head fullLine b
      rw [he, hr] at hcut
      cases hcut
    | inr he =>
      rw [he.1, List.append_cancel_left_eq, List.append_cancel_left_eq] at hcut
      rwa [hcut]

/-- A line that cuts a continued #define: the loop does not copy it to the block. -/
theorem cut_not_emitted {fullLine out line : Str} {lines : List Str} {d : Defines} {b : Block}
    {s s' : LineState} (hd : Directives (line :: lines)) (hr : Rows (line :: lines))
    (hp : Pending fullLine d b s) (hclean : Clean b)
    (hcut : contains defineText line = true ∨ rstrip line = [])
    (h : (line :: lines).foldlM (addDefineLine fullLine) s = .ok s')
    (ht : s'.acc.text = d.text ++ out)
    (he : Emitted fullLine (logicalFrom (s.lineCt + 1) (some b) (line :: lines)) out) : False := by
  have hk : ∀ l ∈ lines, contains defineText l = true → ∃ key, defineKey l = some key :=
    fun l hl => defineKey_isSome hd (List.mem_cons_of_mem line hl)
  obtain ⟨rest, hrest⟩ := emitted_next he
  obtain ⟨s₁, w₁, h₁, hw₁, hdef, hblank, _⟩ :=
    addDefineLine_writes fullLine s (defineKey_isSome hd List.mem_cons_self)
  obtain ⟨s₂, w₂, h₂, hw₂⟩ := foldlM_returns fullLine lines hk s₁
  rw [foldlM_cons_ok h₁ h₂, Except.ok.injEq] at h
  have hline : w₁ ++ w₂ = line ++ rest := by
    rw [← h, hw₂, hw₁, pending_text hp hclean, hrest] at ht
    simpa only [List.append_assoc, List.append_cancel_left_eq] using ht
  cases hcut with
  | inl hc =>
    obtain ⟨r, hw⟩ := hdef hc
    obtain ⟨c, tail, hl, _⟩ := hd line List.mem_cons_self hc
    have hhash : defineText = '#' :: defineText.tail := by decide +kernel
    rw [hw, hl, hhash] at hline
    have hhead := (List.cons.inj hline).1
    revert hhead
    decide
  | inr hb =>
    obtain ⟨hnil, hmulti⟩ := hblank hb
    rw [hnil, List.nil_append] at hline
    obtain ⟨hne, _⟩ := hr.head
    obtain ⟨c, tail, hl⟩ := List.exists_cons_of_ne_nil hne
    have hc := (rstrip_eq_nil_iff line).mp hb c (by simp [hl])
    obtain hw | ⟨r, hw⟩ | ⟨y, hy, hyb, hyw⟩ :=
      foldlM_after_continued hk (hmulti.trans hp.multi) h₂ hw₂
    · rw [hw, hl] at hline
      cases hline
    · rw [hw, hl] at hline
      rw [← (List.cons.inj hline).1] at hc
      revert hc
      decide
    · exact blank_not_prefix hr hb hy hyb (by rw [hline]; exact List.prefix_append line rest) hyw

theorem text_grows {fullLine : Str} {lines : List Str}
    (hk : ∀ l ∈ lines, contains defineText l = true → ∃ key, defineKey l = some key)
    {s s' : LineState} (h : lines.foldlM (addDefineLine fullLine) s = .ok s') :
    ∃ w, s'.acc.text = s.acc.text ++ w := by
  obtain ⟨s₂, w, h₂, hw⟩ := foldlM_returns fullLine lines hk s
  rw [h₂, Except.ok.injEq] at h
  exact ⟨w, by rw [← h, hw]⟩

theorem emitted_after {fullLine out : Str} {d : Defines} {b : Block} {bs : List Block}
    {s s' : LineState} {lines : List Str}
    (hk : ∀ l ∈ lines, contains defineText l = true → ∃ key, defineKey l = some key)
    (hclean : Clean b) (hs : b.single = true → continued b = false)
    (hacc : s.acc = addBlock fullLine d b)
    (h : lines.foldlM (addDefineLine fullLine) s = .ok s') (ht : s'.acc.text = d.text ++ out)
    (he : Emitted fullLine (b :: bs) out) :
    (b.single = true → EndsLine b.lines.flatten) ∧
      ∃ w, s'.acc.text = s.acc.text ++ w ∧ Emitted fullLine bs w := by
  obtain ⟨w, hw⟩ := text_grows hk h
  have hout : out = b.text fullLine ++ w := by
    have heq := ht.symm.trans hw
    rw [hacc, addBlock, Defines.write, record_text, List.append_assoc] at heq
    exact List.append_cancel_left heq
  rw [hout] at he
  obtain ⟨hends, hrest⟩ := emitted_text hclean hs he
  exact ⟨hends, w, hw, hrest⟩

theorem unclosed_not_emitted {fullLine out : Str} {n : Nat} {d : Defines} {b : Block}
    {s : LineState} (hp : Pending fullLine d b s) (hclean : Clean b)
    (ht : s.acc.text = d.text ++ out)
    (he : Emitted fullLine (logicalFrom n (some b) []) out) : False := by
  rw [pending_text hp hclean, List.append_cancel_left_eq] at ht
  obtain ⟨extra, rest, _, _, he, _⟩ := he
  obtain ⟨r, hclose⟩ := closing_head fullLine b
  rw [← ht, hclose] at he
  have hlen := congrArg List.length he
  simp only [List.length_append, List.length_cons] at hlen
  omega

theorem whole_one {key line : Str} {n : Nat} (hc : continues line = false)
    (hends : EndsLine [line].flatten) : Whole ⟨key, n, [line]⟩ := by
  refine ⟨clean_one key line n, fun l hl => ?_, fun _ => hends⟩
  rw [List.getLast?_singleton, Option.mem_some_iff] at hl
  rwa [← hl]

theorem whole_extend {b : Block} {line : Str} (hne : b.lines ≠ []) (hclean : Clean (b.extend line))
    (hc : continues line = false) : Whole (b.extend line) := by
  refine ⟨hclean, fun l hl => ?_, fun h1 => ?_⟩
  · rw [Block.extend, List.getLast?_concat, Option.mem_some_iff] at hl
    rwa [← hl]
  · have hs := extend_single hne line
    rw [Block.single, decide_eq_false_iff_not] at hs
    exact absurd h1 hs

theorem whole_of_emitted {fullLine : Str} {lines : List Str} (hd : Directives lines)
    (hr : Rows lines) :
    (∀ (s s' : LineState) (out : Str), s.multi = false →
      lines.foldlM (addDefineLine fullLine) s = .ok s' → s'.acc.text = s.acc.text ++ out →
      Emitted fullLine (logicalFrom (s.lineCt + 1) none lines) out →
      ∀ b ∈ logicalFrom (s.lineCt + 1) none lines, Whole b) ∧
    ∀ (s s' : LineState) (d : Defines) (b : Block) (out : Str), Pending fullLine d b s → Clean b →
      lines.foldlM (addDefineLine fullLine) s = .ok s' → s'.acc.text = d.text ++ out →
      Emitted fullLine (logicalFrom (s.lineCt + 1) (some b) lines) out →
      ∀ c ∈ logicalFrom (s.lineCt + 1) (some b) lines, Whole c := by
  induction lines with
  | nil =>
    refine ⟨fun s s' out _ _ _ _ b hb => by simp [logicalFrom] at hb, ?_⟩
    intro s s' d b out hp hclean h ht he
    rw [foldlM_nil_inv h] at ht
    exact (unclosed_not_emitted hp hclean ht he).elim
  | cons line lines ih =>
    have hd' : Directives lines := fun l hl => hd l (List.mem_cons_of_mem line hl)
    have hk : ∀ l ∈ lines, contains defineText l = true → ∃ key, defineKey l = some key :=
      fun l hl => defineKey_isSome hd' hl
    obtain ⟨ihNone, ihSome⟩ := ih hd' hr.tail
    constructor
    · intro s s' out hm h ht he
      rw [logicalFrom] at he ⊢
      cases hdef : contains defineText line with
      | false =>
        simp only [hdef, Bool.false_eq_true, if_false] at he ⊢
        rw [List.foldlM_cons, addDefineLine_other hdef hm] at h
        exact ihNone ⟨s.acc, s.multi, s.varName, s.lineCt + 1⟩ s' out hm h ht he
      | true =>
        obtain ⟨key, hkey⟩ := defineKey_isSome hd List.mem_cons_self hdef
        rw [List.foldlM_cons, addDefineLine_define hdef hkey] at h
        simp only [hdef, hkey, if_true, Option.getD_some] at he ⊢
        cases hc : continues line with
        | true =>
          simp only [hc, if_true] at h he ⊢
          refine ihSome ⟨_, true, key, s.lineCt + 1⟩ s' s.acc ⟨key, s.lineCt + 1, [line]⟩ out
            ⟨rfl, rfl, by simp, rfl, by simp [Block.copied]⟩ (clean_one _ _ _) h ht he
        | false =>
          simp only [hc, Bool.false_eq_true, if_false] at h he ⊢
          have hs : continued ⟨key, s.lineCt + 1, [line]⟩ = false := by simp [continued, hc]
          obtain ⟨hends, w, hw, hrest⟩ := emitted_after hk (clean_one _ _ _) (fun _ => hs) rfl h ht he
          rw [List.forall_mem_cons]
          refine ⟨whole_one hc (hends rfl), ?_⟩
          exact ihNone ⟨addBlock fullLine s.acc ⟨key, s.lineCt + 1, [line]⟩, s.multi, key,
            s.lineCt + 1⟩ s' w hm h hw hrest
    · intro s s' d b out hp hclean h ht he
      by_cases hcut : contains defineText line = true ∨ rstrip line = []
      · exact (cut_not_emitted hd hr hp hclean hcut h ht he).elim
      · rw [not_or, Bool.not_eq_true] at hcut
        have hclean' := (clean_extend hp.lines).mpr ⟨hclean, hcut.2, hcut.1⟩
        rw [logicalFrom] at he ⊢
        cases hc : continues line with
        | true =>
          obtain ⟨s₁, h₁, hp', hct⟩ := hp.next hcut.1 (Or.inr hc)
          rw [List.foldlM_cons, h₁] at h
          simp only [hc, if_true, ← hct] at he ⊢
          exact ihSome s₁ s' d (b.extend line) out hp' hclean' h ht he
        | false =>
          obtain ⟨s₁, h₁, hm, hacc, hct⟩ := hp.last hcut.1 hcut.2 hc
          rw [List.foldlM_cons, h₁] at h
          simp only [hc, Bool.false_eq_true, if_false, ← hct] at he ⊢
          have hs := extend_single hp.lines line
          obtain ⟨_, w, hw, hrest⟩ := emitted_after hk hclean' (fun h1 => by simp [hs] at h1) hacc h ht he
          rw [List.forall_mem_cons]
          exact ⟨whole_extend hp.lines hclean' hc, ihNone s₁ s' w hm h hw hrest⟩

theorem emitted_iff_whole (fullLine : Str) {lines : List Str} (hd : Directives lines)
    (hr : Rows lines) (d : Defines) :
    ∃ s out, lines.foldlM (addDefineLine fullLine) ⟨d, false, [], 0⟩ = .ok s ∧
      s.acc.text = d.text ++ out ∧
      (Emitted fullLine (logicalFrom 1 none lines) out ↔
        ∀ b ∈ logicalFrom 1 none lines, Whole b) := by
  have hk : ∀ l ∈ lines, contains defineText l = true → ∃ key, defineKey l = some key :=
    fun l hl => defineKey_isSome hd hl
  obtain ⟨s, out, h, ht⟩ := foldlM_returns fullLine lines hk ⟨d, false, [], 0⟩
  refine ⟨s, out, h, ht, (whole_of_emitted hd hr).1 _ s out rfl h ht, fun hw => ?_⟩
  obtain ⟨s', h', hacc⟩ := (foldlM_blocks fullLine lines).1 ⟨d, false, [], 0⟩ _ rfl
    ((blocksFrom_of_whole hk).1 1 hw)
  rw [h, Except.ok.injEq] at h'
  have hout : out = ((logicalFrom 1 none lines).map (Block.text fullLine)).flatten := by
    rw [h', hacc, foldl_addBlock_text, List.append_cancel_left_eq] at ht
    exact ht.symm
  rw [hout]
  exact emitted_texts fullLine _ hw ((logicalFrom_continued lines).1 1)

/-- For every file whose #define occurrences are directives: addDefines returns, and what it
writes is one closed block for each directive, with exactly the lines of its logical line, if and
only if every logical line is whole. -/
theorem defines_emitted_iff (fs : FS) (readlink : Str → Option Str) (cFile fullLine t : Str)
    (d : Defines) (hlink : readlink cFile = some fullLine) (hfile : fs fullLine = .text t)
    (hdir : Directives (readlines (universalNewlines t))) :
    ∃ d' out, addDefines fs readlink d cFile = .ok d' ∧ d'.text = d.text ++ out ∧
      (Emitted fullLine (logicalFrom 1 none (readlines (universalNewlines t))) out ↔
        ∀ b ∈ logicalFrom 1 none (readlines (universalNewlines t)), Whole b) := by
  obtain ⟨s, out, h, ht, hiff⟩ := emitted_iff_whole fullLine hdir (rows_readlines _) d
  refine ⟨s.acc, out, ?_, ht, hiff⟩
  simp only [addDefines, hlink, openLines, hfile, bind, Except.bind, h]

def twoLines : Str := "#define A \\\n  1\nint x;\n".toList

theorem directives_of_first {line : Str} {lines : List Str} {c : Char} {rest : Str}
    (hl : line = defineText ++ c :: rest) (hc : isspace c = true) (hs : split rest ≠ [])
    (hn : contains defineText rest = false) (hno : ∀ l ∈ lines, contains defineText l = false) :
    Directives (line :: lines) := by
  intro l hm hd
  cases List.mem_cons.mp hm with
  | inl he =>
    rw [he]
    exact ⟨c, rest, hl, hc, hs, hn⟩
  | inr hm =>
    rw [hno l hm] at hd
    cases hd

theorem defines_emitted_iff_two :
    ∃ d' out, addDefines (filesOf [("a.c".toList, twoLines)]) some .empty "a.c".toList = .ok d' ∧
      d'.text = [] ++ out ∧
      (Emitted "a.c".toList (logicalFrom 1 none (readlines (universalNewlines twoLines))) out ↔
        ∀ b ∈ logicalFrom 1 none (readlines (universalNewlines twoLines)), Whole b) :=
  defines_emitted_iff (filesOf [("a.c".toList, twoLines)]) some "a.c".toList "a.c".toList twoLines
    .empty rfl rfl (directives_of_first rfl rfl (by decide +kernel) (by decide +kernel)
      (by decide +kernel))

/-- A macro whose continuation is a blank line: the next line of the file takes its place. -/
def blankSecond : Str := "#define A \\\n\nint x;\n".toList

theorem next_line_leaks :
    ∃ d', addDefines (filesOf [("a.c".toList, blankSecond)]) some .empty "a.c".toList = .ok d' ∧
      d'.text = beginComment "a.c".toList 1 ++ ifndefLine "A".toList ++
        "#define A \\\nint x;\n\n".toList ++ endifLine "A".toList ++
        endComment false "a.c".toList 3 ∧
      Directives (readlines (universalNewlines blankSecond)) ∧
      logicalFrom 1 none (readlines (universalNewlines blankSecond)) =
        [⟨"A".toList, 1, ["#define A \\\n".toList, "\n".toList]⟩] ∧
      ¬ Emitted "a.c".toList (logicalFrom 1 none (readlines (universalNewlines blankSecond)))
        d'.text := by
  have hdir : Directives (readlines (universalNewlines blankSecond)) :=
    directives_of_first rfl rfl (by decide +kernel) (by decide +kernel) (by decide +kernel)
  have hlogical : logicalFrom 1 none (readlines (universalNewlines blankSecond)) =
      [⟨"A".toList, 1, ["#define A \\\n".toList, "\n".toList]⟩] := by decide +kernel
  obtain ⟨s, out, h, ht, hiff⟩ := emitted_iff_whole "a.c".toList hdir (rows_readlines _) .empty
  have hrun : addDefines (filesOf [("a.c".toList, blankSecond)]) some .empty "a.c".toList =
      .ok s.acc := by
    rw [addDefines, bind_eq_ok]
    exact ⟨_, rfl, bind_eq_ok.mpr ⟨s, h, rfl⟩⟩
  have htext : (addDefines (filesOf [("a.c".toList, blankSecond)]) some .empty
      "a.c".toList).toOption.map Defines.text =
      some (beginComment "a.c".toList 1 ++ ifndefLine "A".toList ++
        "#define A \\\nint x;\n\n".toList ++ endifLine "A".toList ++
        endComment false "a.c".toList 3) := by decide +kernel
  rw [hrun] at htext
  refine ⟨s.acc, hrun, Option.some.inj htext, hdir, hlogical, fun he => ?_⟩
  have hout : s.acc.text = out := ht
  rw [hout, hiff, hlogical] at he
  exact (he _ List.mem_cons_self).1 "\n".toList (by decide +kernel) |>.1 (by decide +kernel)

end OpenedExtraction.MacroBlocks
