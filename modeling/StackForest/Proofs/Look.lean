import StackForest.Proofs.Descent
import StackForest.Proofs.Scan

/-!
# Looks

The scan looks at its innermost frame, again after each frame that it closes, until that frame wants
another entry; it visits that entry and looks again. `Look` is the scan at such a point. A scan is
what its looks lead to (`exists_ends_outcome`), and goes on from each of them (`run_of_reaches`).
-/

namespace StackForest

namespace Frame

theorem wait_cases {f g : Frame} {rest : List Entry} (h : f.move rest = .ok (.wait g)) :
    ∃ x rest', rest = x :: rest' ∧
      ((∃ i n l d counted es, f = .call i n l d counted es ∧ g = f ∧ counted < d.consumes) ∨
        ∃ i l depth es, f = .block i l depth es ∧ g = .block i l (nextDepth depth x) es ∧
          nextDepth depth x ≠ 0) := by
  cases rest with
  | nil =>
    cases f with
    | block i l depth es => cases h
    | call i n l d counted es =>
      by_cases hc : d.consumes ≤ counted
      · rw [move, if_pos hc] at h
        cases h
      · rw [move, if_neg hc] at h
        cases h
  | cons x rest =>
    refine ⟨x, rest, rfl, ?_⟩
    cases f with
    | call i n l d counted es =>
      by_cases hc : d.consumes ≤ counted
      · rw [move, if_pos hc] at h
        cases h
      · rw [move, if_neg hc] at h
        cases h
        exact .inl ⟨_, _, _, _, _, _, rfl, rfl, Nat.lt_of_not_le hc⟩
    | block i l depth es =>
      by_cases hd : nextDepth depth x = 0
      · simp only [move, if_pos hd] at h
        cases h
      · simp only [move, if_neg hd] at h
        cases h
        exact .inr ⟨_, _, _, _, rfl, rfl, hd⟩

end Frame

def Begun.enter (s : Scan) : Begun → Scan
  | leaf e => s.give e
  | frame f => ⟨f :: s.frames, s.roots⟩
  | nothing => s

/-! ## From look to look -/

/-- The scan where it looks at its innermost frame. The entries in front of `cursor` are not visited
yet, and `closed` is the frame that was closed since the last visit, if any was: the last one. -/
structure Look extends Scan where
  cursor : Nat
  closed : Option Frame

namespace Look

def start (p : Program) : Look := ⟨⟨[], []⟩, p.length, none⟩

/-- The entries that are not visited yet, the nearest first. -/
def ahead (p : Program) (l : Look) : List Entry := (p.take l.cursor).reverse

/-- What the frames are when the next entry is visited: the innermost, if any is open, waits. -/
inductive Rests (rest : List Entry) : List Frame → List Frame → Prop
  | none : Rests rest [] []
  | wait {f g fs} : f.move rest = .ok (.wait g) → Rests rest (f :: fs) (g :: fs)

inductive Turn (table : Table) (p : Program) : Look → Look → Prop
  | close {l f fs e} : l.frames = f :: fs → f.move (l.ahead p) = .ok (.close e) →
    Turn table p l ⟨Scan.give e ⟨fs, l.roots⟩, l.cursor, some f⟩
  | visit {l fs e rest b} : Rests (l.ahead p) l.frames fs → l.ahead p = e :: rest →
    Begun.ofEntry table (l.cursor - 1) e = .ok b →
    Turn table p l ⟨b.enter ⟨fs, l.roots⟩, l.cursor - 1, none⟩

inductive Ends (table : Table) (p : Program) : Look → Except TreeFault (List Expr) → Prop
  | shortage {l f fs fault} : l.frames = f :: fs → f.move (l.ahead p) = .error fault →
    Ends table p l (.error fault)
  | refusal {l fs e rest fault} : Rests (l.ahead p) l.frames fs → l.ahead p = e :: rest →
    Begun.ofEntry table (l.cursor - 1) e = .error fault → Ends table p l (.error fault)
  | done {l} : l.frames = [] → l.ahead p = [] → Ends table p l (.ok l.roots)

inductive Reaches (table : Table) (p : Program) : Look → Prop
  | start : Reaches table p (start p)
  | turn {l m} : Reaches table p l → Turn table p l m → Reaches table p m

def run (table : Table) (p : Program) (l : Look) : Run :=
  resume table p none l.frames l.roots l.cursor (List.range' l.cursor (p.length - l.cursor))

section
variable {table : Table} {p : Program} {l m : Look}

theorem pos_of_ahead {e : Entry} {rest : List Entry} (h : l.ahead p = e :: rest) :
    0 < l.cursor := by
  rw [Nat.pos_iff_ne_zero]
  intro h0
  rw [ahead, h0] at h
  cases h

theorem cursor_of_ahead {e : Entry} {rest : List Entry} (h : l.ahead p = e :: rest)
    (hl : l.cursor ≤ p.length) :
    ∃ j, l.cursor = j + 1 ∧ p[j]? = some e ∧ rest = (p.take j).reverse := by
  cases hj : l.cursor with
  | zero => rw [ahead, hj] at h; cases h
  | succ j =>
    have hlt : j < p.length := by omega
    rw [ahead, hj, reverse_take_succ hlt] at h
    cases h
    exact ⟨j, rfl, List.getElem?_eq_getElem hlt, rfl⟩

theorem settle_of_rests {rest : List Entry} {frames fs : List Frame} (h : Rests rest frames fs)
    (roots : List Expr) : settle rest none frames roots = .ok ⟨fs, roots⟩ := by
  cases h with
  | none => rfl
  | wait hm => simp only [settle, Frame.receive, hm]

theorem settle_enter (rest : List Entry) (b : Begun) (s : Scan) :
    settle rest b.done (b.opened ++ s.frames) s.roots =
      settle rest none (b.enter s).frames (b.enter s).roots := by
  cases b with
  | leaf e => exact settle_some rest e s
  | frame f => rfl
  | nothing => rfl

theorem run_start : (start p).run table p = reconstruct table p := by
  simp only [run, start, resume, settle, List.take_length, Nat.sub_self]
  rfl

theorem cursor_le_of_turn (h : Turn table p l m) : m.cursor ≤ l.cursor := by
  cases h with
  | close => exact Nat.le_refl _
  | visit => exact Nat.sub_le _ _

theorem run_of_turn (h : Turn table p l m) (hl : l.cursor ≤ p.length) :
    m.run table p = l.run table p := by
  cases h with
  | @close f fs e hf hm =>
    rw [ahead] at hm
    have hclose : settle (p.take l.cursor).reverse none (f :: fs) l.roots =
        settle (p.take l.cursor).reverse (some e) fs l.roots := by
      simp only [settle, Frame.receive, hm]
    simp only [run, resume, hf]
    rw [hclose, settle_some _ _ ⟨fs, l.roots⟩]
  | @visit fs e rest b hr ha hb =>
    obtain ⟨j, hj, -, rfl⟩ := cursor_of_ahead ha hl
    have hvisited : List.range' j (p.length - j) =
        j :: List.range' (j + 1) (p.length - (j + 1)) := by
      rw [show p.length - j = p.length - (j + 1) + 1 by omega, List.range'_succ]
    have hrests := settle_of_rests hr l.roots
    have hvisit := (visit_eq hb (p.take j).reverse ⟨fs, l.roots⟩).trans (settle_enter _ b _)
    rw [ha] at hrests
    rw [ahead, hj] at ha
    rw [hj, Nat.add_sub_cancel] at hvisit
    simp only [run, resume, hj, ha, hrests, scan, Nat.add_sub_cancel, hvisit]
    exact hvisited ▸ rfl

theorem outcome_of_ends {r : Except TreeFault (List Expr)} (h : Ends table p l r)
    (hl : l.cursor ≤ p.length) : (l.run table p).outcome = r := by
  cases h with
  | shortage hf hm =>
    rw [ahead] at hm
    simp only [run, resume, hf, settle, Frame.receive, hm]
  | @refusal fs e rest fault hr ha hb =>
    obtain ⟨j, hj, -, rfl⟩ := cursor_of_ahead ha hl
    have hrests := settle_of_rests hr l.roots
    rw [ha] at hrests
    rw [ahead, hj] at ha
    rw [hj, Nat.add_sub_cancel] at hb
    simp only [run, resume, hj, ha, hrests, scan, Nat.add_sub_cancel, StackForest.visit, hb]
  | done hf ha =>
    rw [ahead] at ha
    simp only [run, resume, hf, ha, settle, scan, Option.toList_none, List.nil_append]

theorem turn_or_ends (table : Table) (p : Program) (l : Look) :
    (∃ m, Turn table p l m) ∨ ∃ r, Ends table p l r := by
  -- whether the innermost frame waits decides whether there is a visit at all
  have hvisit {fs : List Frame} (hr : Rests (l.ahead p) l.frames fs)
      {e : Entry} {rest : List Entry} (ha : l.ahead p = e :: rest) :
      (∃ m, Turn table p l m) ∨ ∃ r, Ends table p l r := by
    cases hb : Begun.ofEntry table (l.cursor - 1) e with
    | error fault => exact .inr ⟨_, .refusal hr ha hb⟩
    | ok b => exact .inl ⟨_, .visit hr ha hb⟩
  cases hf : l.frames with
  | nil =>
    have hr : Rests (l.ahead p) l.frames [] := by
      rw [hf]
      exact .none
    cases ha : l.ahead p with
    | nil => exact .inr ⟨_, .done hf ha⟩
    | cons e rest => exact hvisit hr ha
  | cons f fs =>
    cases hm : f.move (l.ahead p) with
    | error fault => exact .inr ⟨_, .shortage hf hm⟩
    | ok move =>
      cases move with
      | close e => exact .inl ⟨_, .close hf hm⟩
      | wait g =>
        have hr : Rests (l.ahead p) l.frames (g :: fs) := by
          rw [hf]
          exact .wait hm
        obtain ⟨e, rest, ha, -⟩ := Frame.wait_cases hm
        exact hvisit hr ha

theorem length_give (e : Expr) (s : Scan) : (s.give e).frames.length = s.frames.length := by
  obtain ⟨_ | ⟨f, fs⟩, roots⟩ := s <;> rfl

theorem lex_of_turn (h : Turn table p l m) :
    Prod.Lex (· < ·) (· < ·) (m.cursor, m.frames.length) (l.cursor, l.frames.length) := by
  cases h with
  | @close f fs e hf hm =>
    -- the tree goes into a frame that is there
    refine .right _ ?_
    rw [length_give, hf]
    exact Nat.lt_succ_self _
  | visit hr ha hb => exact .left _ _ (Nat.sub_lt (pos_of_ahead ha) Nat.one_pos)

theorem exists_ends (l : Look) (hl : Reaches table p l) :
    ∃ m r, Reaches table p m ∧ Ends table p m r := by
  rcases turn_or_ends table p l with ⟨m, hm⟩ | ⟨r, hr⟩
  · exact exists_ends m (hl.turn hm)
  · exact ⟨l, r, hl, hr⟩
termination_by (l.cursor, l.frames.length)
decreasing_by exact lex_of_turn hm

theorem cursor_le_of_reaches (h : Reaches table p l) : l.cursor ≤ p.length := by
  induction h with
  | start => exact Nat.le_refl _
  | turn _ hturn ih => exact Nat.le_trans (cursor_le_of_turn hturn) ih

/-- Whatever look the scan is at, the rest of its run goes on from there. -/
theorem run_of_reaches (h : Reaches table p l) : l.run table p = reconstruct table p := by
  induction h with
  | start => exact run_start
  | turn hl hturn ih => rw [run_of_turn hturn (cursor_le_of_reaches hl), ih]

theorem exists_ends_outcome (table : Table) (p : Program) :
    ∃ l, Reaches table p l ∧ Ends table p l (reconstruct table p).outcome := by
  have hstart : Reaches table p (start p) := .start
  obtain ⟨l, r, hl, hr⟩ := exists_ends (start p) hstart
  have houtcome := outcome_of_ends hr (cursor_le_of_reaches hl)
  rw [run_of_reaches hl] at houtcome
  rw [houtcome]
  exact ⟨l, hl, hr⟩

end

end Look
end StackForest
