import Mathlib.Data.List.Basic

/-!
# Frames between two delimiters

A sequence over an arbitrary alphabet is cut by two delimiters, an opening symbol `o` and a closing
symbol `c`: a frame is `o`, a body without `c`, and `c`; what lies between two frames is a gap, which
has no `o`; what remains at the end contains no complete frame.

`scan` reads the sequence symbol by symbol and never looks back: `Pending` is what it remembers of
the frame under way. The grammar of such sequences is `Layout` (`assemble` puts one together). That
every sequence has exactly one layout, and that scanning composes over concatenation, is proved in
`Scriptor.Proofs.FramingProofs`.
-/

universe u

namespace Framing

/-- A gap and the body of the frame after it. -/
structure Piece (α : Type u) where
  /-- What was skipped before the opening delimiter. -/
  gap : List α
  /-- What stands between the delimiters. -/
  body : List α
  deriving DecidableEq, Repr

variable {α : Type u}

/-- The frame of a piece, with its delimiters. -/
def Piece.frame (o c : α) (p : Piece α) : List α := o :: (p.body ++ [c])

/-- The symbols of a piece: the gap, then the frame. -/
def Piece.text (o c : α) (p : Piece α) : List α := p.gap ++ p.frame o c

/-- A piece of the grammar: no opening delimiter in the gap, no closing one in the body. -/
def Piece.Valid (o c : α) (p : Piece α) : Prop := o ∉ p.gap ∧ c ∉ p.body

/-- No opening delimiter is followed by a closing one. -/
def NoFrame (o c : α) (r : List α) : Prop := ∀ g t, r = g ++ o :: t → c ∉ t

/-- A way of writing a sequence as gaps, frames and a remainder. -/
structure Layout (α : Type u) where
  /-- The complete frames, each with the gap before it. -/
  pieces : List (Piece α)
  /-- What follows the last complete frame. -/
  rest : List α
  deriving DecidableEq, Repr

/-- The sequence a layout describes. -/
def Layout.assemble (o c : α) (d : Layout α) : List α :=
  (d.pieces.map (Piece.text o c)).flatten ++ d.rest

/-- The layouts of the grammar. -/
def Layout.Valid (o c : α) (d : Layout α) : Prop :=
  (∀ p ∈ d.pieces, p.Valid o c) ∧ NoFrame o c d.rest

/-- What a scanner remembers after the last complete frame: the gap so far, and, once an opening
delimiter was met, the body so far. -/
inductive Pending (o c : α) : Type u where
  /-- No opening delimiter yet. -/
  | gap (g : List α) (hg : o ∉ g)
  /-- An opening delimiter that is still to be closed. -/
  | opened (g b : List α) (hg : o ∉ g) (hb : c ∉ b)

/-- The symbols a pending state stands for. -/
def Pending.toList {o c : α} : Pending o c → List α
  | .gap g _ => g
  | .opened g b _ _ => g ++ o :: b

/-- Nothing read yet. -/
def Pending.empty (o c : α) : Pending o c := .gap [] (List.not_mem_nil)

variable [DecidableEq α] {o c : α}

/-- One symbol: the frame it completes, if any, and what is pending afterwards. -/
def Pending.push : Pending o c → α → Option (Piece α) × Pending o c
  | .gap g hg, a =>
    if h : a = o then (none, .opened g [] hg List.not_mem_nil)
    else (none, .gap (g ++ [a]) (by simp [hg, Ne.symm h]))
  | .opened g b hg hb, a =>
    if h : a = c then (some ⟨g, b⟩, .empty o c)
    else (none, .opened g (b ++ [a]) hg (by simp [hb, Ne.symm h]))

/-- All frames completed while reading `x`, and what is pending at its end. -/
def Pending.scan : Pending o c → List α → List (Piece α) × Pending o c
  | s, [] => ([], s)
  | s, a :: x =>
    let (p, s) := s.push a
    let (ps, s) := s.scan x
    (p.toList ++ ps, s)

/-- The layout a scan from scratch finds. -/
def scan (o c : α) (x : List α) : Layout α :=
  let (ps, s) := (Pending.empty o c).scan x
  ⟨ps, s.toList⟩

/-- The complete frames of a sequence, in order. -/
def frames (o c : α) (x : List α) : List (List α) := (scan o c x).pieces.map (Piece.frame o c)

end Framing
