import StackForest.Proofs.Except
import StackForest.Expr.Reconstruct
import Mathlib.Data.List.Forall2

/-!
# Two scans side by side

Two scans, each with a table of its own, over entries that are alike one by one. As long as each
entry begins something alike in both, their frames stay related, and so do their runs
(`Simulation.reconstruct`).
-/

namespace StackForest

/-! ## Related parts of a scan -/

section
variable (L : Value → Value → Prop) (T : Expr → Expr → Prop)

inductive Frame.Related : Frame → Frame → Prop
  | call {i n l m} {d d' : Effect} {counted es fs} : d.consumes = d'.consumes →
    d.produces = d'.produces → L l m → List.Forall₂ T es fs →
    Related (.call i n l d counted es) (.call i n m d' counted fs)
  | block {i l m depth es fs} : L l m → List.Forall₂ T es fs →
    Related (.block i l depth es) (.block i m depth fs)

inductive Frame.Move.Related : Frame.Move → Frame.Move → Prop
  | wait {f g} : Frame.Related L T f g → Related (.wait f) (.wait g)
  | close {e f} : T e f → Related (.close e) (.close f)

inductive Begun.Related : Begun → Begun → Prop
  | leaf {e f} : T e f → Related (.leaf e) (.leaf f)
  | frame {f g} : Frame.Related L T f g → Related (.frame f) (.frame g)
  | nothing : Related .nothing .nothing

structure Scan.Related (s t : Scan) : Prop where
  frames : List.Forall₂ (Frame.Related L T) s.frames t.frames
  roots : List.Forall₂ T s.roots t.roots

structure Run.Related (r r' : Run) : Prop where
  visits : r.visits = r'.visits
  outcome : Lift (List.Forall₂ T) r.outcome r'.outcome

end

theorem Run.eq_of_related {r r' : Run} (h : Run.Related (· = ·) r r') : r = r' := by
  obtain ⟨visits, outcome⟩ := r
  obtain ⟨visits', outcome'⟩ := r'
  obtain ⟨hvisits, houtcome⟩ := h
  cases hvisits
  cases houtcome with
  | ok hforest =>
    rw [List.forall₂_eq_eq_eq] at hforest
    rw [hforest]
  | error fault => rfl

/-- What scans with the tables `t₁` and `t₂` cannot tell apart: entries that are `Alike`, labels
related by `L` and trees related by `T`. -/
structure Simulation (t₁ t₂ : Table) (Alike : Entry → Entry → Prop) (L : Value → Value → Prop)
    (T : Expr → Expr → Prop) : Prop where
  isBlock : ∀ {e f}, T e f → e.isBlock = f.isBlock
  call : ∀ {n c p l m es fs}, L l m → List.Forall₂ T es fs → T (.call n c p l es) (.call n c p m fs)
  block : ∀ {l m es fs}, L l m → List.Forall₂ T es fs → T (.ofChildren l es) (.ofChildren m fs)
  nextDepth : ∀ {x y}, Alike x y → ∀ depth, Frame.nextDepth depth x = Frame.nextDepth depth y
  begun : ∀ {x y}, Alike x y → ∀ index,
    Lift (Begun.Related L T) (Begun.ofEntry t₁ index x) (Begun.ofEntry t₂ index y)

namespace Simulation

variable {t₁ t₂ : Table} {Alike : Entry → Entry → Prop} {L : Value → Value → Prop}
  {T : Expr → Expr → Prop} (S : Simulation t₁ t₂ Alike L T) {p q : List Entry}
include S

theorem receive {f g : Frame} (h : Frame.Related L T f g) {d d' : Option Expr}
    (hd : Option.Rel T d d') : Frame.Related L T (f.receive d) (g.receive d') := by
  cases hd with
  | none => exact h
  | some he =>
    cases h with
    | call hc hp hl hes =>
      simp only [Frame.receive, Frame.add, S.isBlock he]
      exact .call hc hp hl (.cons he hes)
    | block hl hes => exact .block hl (.cons he hes)

theorem move (h : List.Forall₂ Alike p q) {f g : Frame} (hfg : Frame.Related L T f g) :
    Lift (Frame.Move.Related L T) (f.move p) (g.move q) := by
  cases hfg with
  | call hc hp hl hes =>
    have hempty : q.isEmpty = p.isEmpty := by
      cases h <;> rfl
    simp only [Frame.move, hempty, ← hc, ← hp]
    split
    · exact .ok (Frame.Move.Related.close (S.call hl hes))
    split
    · exact .error _
    · exact .ok (Frame.Move.Related.wait (.call hc hp hl hes))
  | block hl hes =>
    cases h with
    | nil => exact .error _
    | cons hx _ =>
      simp only [Frame.move, S.nextDepth hx]
      split
      · exact .ok (Frame.Move.Related.close (S.block hl hes))
      · exact .ok (Frame.Move.Related.wait (.block hl hes))

theorem settle (h : List.Forall₂ Alike p q) {fs gs : List Frame}
    (hfs : List.Forall₂ (Frame.Related L T) fs gs) {d d' : Option Expr} (hd : Option.Rel T d d')
    {roots roots' : List Expr} (hroots : List.Forall₂ T roots roots') :
    Lift (Scan.Related L T) (settle p d fs roots) (settle q d' gs roots') := by
  -- a frame that closes hands its tree to the next one, so any two trees may be handed in
  induction hfs generalizing d d' with
  | nil =>
    cases hd with
    | none => exact .ok ⟨.nil, hroots⟩
    | some he => exact .ok ⟨.nil, .cons he hroots⟩
  | cons hf hfs ih =>
    rcases lift_iff.mp (S.move h (S.receive hf hd)) with
      ⟨m, m', hm, hm', hmove⟩ | ⟨fault, hm, hm'⟩
    · simp only [StackForest.settle, hm, hm']
      cases hmove with
      | wait hf => exact .ok ⟨.cons hf hfs, hroots⟩
      | close he => exact ih (.some he)
    · simp only [StackForest.settle, hm, hm']
      exact .error fault

theorem visit (h : List.Forall₂ Alike p q) {x y : Entry} (hxy : Alike x y) (index : Nat)
    {s t : Scan} (hst : Scan.Related L T s t) :
    Lift (Scan.Related L T) (visit t₁ index x p s) (visit t₂ index y q t) := by
  rcases lift_iff.mp (S.begun hxy index) with ⟨b, b', hb, hb', hbegun⟩ | ⟨fault, hb, hb'⟩
  · simp only [StackForest.visit, hb, hb']
    cases hbegun with
    | leaf he => exact S.settle h hst.frames (.some he) hst.roots
    | frame hf => exact S.settle h (.cons hf hst.frames) .none hst.roots
    | nothing => exact S.settle h hst.frames .none hst.roots
  · simp only [StackForest.visit, hb, hb']
    exact .error fault

theorem scan (h : List.Forall₂ Alike p q) (count : Nat) {s t : Scan} (hst : Scan.Related L T s t)
    (visited : List Nat) :
    Run.Related T (scan t₁ count p s visited) (scan t₂ count q t visited) := by
  induction h generalizing count s t visited with
  | nil => exact ⟨rfl, .ok hst.roots⟩
  | cons hxy h ih =>
    rcases lift_iff.mp (S.visit h hxy (count - 1) hst) with
      ⟨r, r', hr, hr', hrr⟩ | ⟨fault, hr, hr'⟩
    · simp only [StackForest.scan, hr, hr']
      exact ih _ hrr _
    · simp only [StackForest.scan, hr, hr']
      exact ⟨rfl, .error fault⟩

theorem reconstruct (h : List.Forall₂ Alike p q) :
    Run.Related T (reconstruct t₁ p) (reconstruct t₂ q) := by
  simp only [StackForest.reconstruct, h.length_eq]
  exact S.scan (List.rel_reverse h) _ ⟨.nil, .nil⟩ []

end Simulation
end StackForest
