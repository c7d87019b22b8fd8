import OpenedExtraction.PyText

/-! A text that is written piece by piece, where some pieces have to start a line. No program
is mentioned. -/
namespace OpenedExtraction.Pieces
open OpenedExtraction.PyText

structure Piece where
  text : Str
  directive : Bool
  deriving DecidableEq, Repr

def directive (text : Str) : Piece := ⟨text, true⟩

def plain (text : Str) : Piece := ⟨text, false⟩

@[simp] theorem directive_text (t : Str) : (directive t).text = t := rfl

@[simp] theorem directive_directive (t : Str) : (directive t).directive = true := rfl

@[simp] theorem plain_text (t : Str) : (plain t).text = t := rfl

@[simp] theorem plain_directive (t : Str) : (plain t).directive = false := rfl

def textOf (ps : List Piece) : Str := (ps.map Piece.text).flatten

/-- Every directive is written where a line starts. -/
def OwnLine (ps : List Piece) : Prop :=
  ∀ before p after, ps = before ++ p :: after → p.directive = true → EndsLine (textOf before)

/-- The same for what is written after a text, piece by piece. -/
def OwnLineFrom : Str → List Piece → Prop
  | _, [] => True
  | t, p :: ps => (p.directive = true → EndsLine t) ∧ OwnLineFrom (t ++ p.text) ps

@[simp] theorem textOf_nil : textOf [] = [] := rfl

@[simp] theorem textOf_cons (p : Piece) (ps : List Piece) :
    textOf (p :: ps) = p.text ++ textOf ps := rfl

@[simp] theorem textOf_append (a b : List Piece) : textOf (a ++ b) = textOf a ++ textOf b := by
  simp [textOf]

theorem ownLineFrom_append (t : Str) (a b : List Piece) :
    OwnLineFrom t (a ++ b) ↔ OwnLineFrom t a ∧ OwnLineFrom (t ++ textOf a) b := by
  induction a generalizing t with
  | nil => simp [OwnLineFrom]
  | cons p a ih =>
    rw [List.cons_append, OwnLineFrom, OwnLineFrom, ih, and_assoc, textOf_cons, List.append_assoc]

theorem ownLineFrom_iff (t : Str) (ps : List Piece) :
    OwnLineFrom t ps ↔ ∀ before p after, ps = before ++ p :: after → p.directive = true →
      EndsLine (t ++ textOf before) := by
  constructor
  · intro h before p after hs hd
    rw [hs, ownLineFrom_append] at h
    exact h.2.1 hd
  · intro h
    induction ps generalizing t with
    | nil => trivial
    | cons q ps ih =>
      refine ⟨fun hd => by simpa using h [] q ps rfl hd, ih (t ++ q.text) ?_⟩
      intro before p after hs hd
      have he := h (q :: before) p after (by rw [hs]; rfl) hd
      rwa [textOf_cons, ← List.append_assoc] at he

theorem ownLine_iff (ps : List Piece) : OwnLine ps ↔ OwnLineFrom [] ps := by
  rw [ownLineFrom_iff]
  rfl

theorem endsLine_iff (s : Str) : EndsLine s ↔ ∀ c ∈ s.getLast?, c = '\n' := by
  constructor
  · intro h c hc
    cases h with
    | inl he => simp [he] at hc
    | inr he =>
      obtain ⟨b, rfl⟩ := he
      rw [List.getLast?_concat, Option.mem_some_iff] at hc
      exact hc.symm
  · intro h
    cases List.eq_nil_or_concat s with
    | inl he => exact Or.inl he
    | inr he =>
      obtain ⟨b, c, rfl⟩ := he
      rw [List.concat_eq_append] at h ⊢
      rw [h c (by simp)]
      exact Or.inr ⟨b, rfl⟩

theorem endsLine_append_iff (t : Str) {u : Str} (hu : u ≠ []) :
    EndsLine (t ++ u) ↔ EndsLine u := by
  rw [endsLine_iff, endsLine_iff, List.getLast?_append_of_ne_nil t hu]

theorem endsLine_newline (t : Str) : EndsLine (t ++ ['\n']) := Or.inr ⟨t, rfl⟩

end OpenedExtraction.Pieces
