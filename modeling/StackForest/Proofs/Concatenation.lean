import StackForest.Proofs.Scan

/-!
# Programs in a row

Nothing that succeeds looks past the start of its part: a frame that is satisfied with what it
finds is as satisfied with more (`move_append`). Only the indices in the frames differ.
-/

namespace StackForest

open ShiftReduce

/-! ## Frames behind `k` more entries -/

namespace Frame

def shift (k : Nat) : Frame → Frame
  | call i n l d counted es => call (i + k) n l d counted es
  | block i l depth es => block (i + k) l depth es

def Move.shift (k : Nat) : Move → Move
  | wait f => wait (f.shift k)
  | close e => close e

theorem receive_shift (k : Nat) (done : Option Expr) (f : Frame) :
    (f.shift k).receive done = (f.receive done).shift k := by
  cases done <;> cases f <;> rfl

end Frame

def Scan.shift (k : Nat) (s : Scan) : Scan := ⟨s.frames.map (Frame.shift k), s.roots⟩

def Begun.shift (k : Nat) : Begun → Begun
  | leaf e => leaf e
  | frame f => frame (f.shift k)
  | nothing => nothing

theorem begun_shift {table : Table} {index : Nat} {e : Entry} {b : Begun}
    (h : Begun.ofEntry table index e = .ok b) (k : Nat) :
    Begun.ofEntry table (index + k) e = .ok (b.shift k) := by
  cases e with
  | foreign v => cases h
  | instruction i =>
    cases i with
    | pushNumber n l => cases h; rfl
    | pushText t l => cases h; rfl
    | invoke name l =>
      simp only [Begun.ofEntry] at h ⊢
      by_cases hc : name = blockClose
      · rw [if_pos hc] at h ⊢
        cases h; rfl
      by_cases ho : name = blockOpen
      · rw [if_neg hc, if_pos ho] at h ⊢
        cases h; rfl
      rw [if_neg hc, if_neg ho] at h ⊢
      cases hl : table.lookup? name with
      | none => rw [hl] at h; cases h
      | some effect => rw [hl] at h; cases h; rfl

/-! ## Steps that succeed -/

section
variable {rest : List Entry} (more : List Entry) (k : Nat)

theorem move_append {f : Frame} {m : Frame.Move} (h : f.move rest = .ok m) :
    (f.shift k).move (rest ++ more) = .ok (m.shift k) := by
  cases f with
  | call i n l d counted es =>
    simp only [Frame.shift, Frame.move] at h ⊢
    by_cases hc : d.consumes ≤ counted
    · rw [if_pos hc] at h ⊢
      cases h; rfl
    · rw [if_neg hc] at h ⊢
      cases rest with
      | nil => cases h
      | cons e rest => cases h; rfl
  | block i l depth es =>
    cases rest with
    | nil => cases h
    | cons e rest =>
      simp only [Frame.shift, Frame.move, List.cons_append] at h ⊢
      by_cases hd : Frame.nextDepth depth e = 0
      · rw [if_pos hd] at h ⊢
        cases h; rfl
      · rw [if_neg hd] at h ⊢
        cases h; rfl

theorem settle_append : ∀ {done : Option Expr} {fs : List Frame} {roots : List Expr} {s : Scan},
    settle rest done fs roots = .ok s →
      settle (rest ++ more) done (fs.map (Frame.shift k)) roots = .ok (s.shift k)
  | done, [], roots, s, h => by cases h; rfl
  | done, f :: fs, roots, s, h => by
    rw [settle] at h
    rw [List.map_cons, settle, Frame.receive_shift]
    cases hm : (f.receive done).move rest with
    | error fault => rw [hm] at h; cases h
    | ok m =>
      rw [hm] at h
      rw [move_append more k hm]
      cases m with
      | wait f => cases h; rfl
      | close e => exact settle_append h

theorem visit_append {table : Table} {index : Nat} {e : Entry} {s r : Scan}
    (h : visit table index e rest s = .ok r) :
    visit table (index + k) e (rest ++ more) (s.shift k) = .ok (r.shift k) := by
  obtain ⟨b, hb, hs⟩ := settle_of_visit h
  have hs' := settle_append more k hs
  rw [List.map_append] at hs'
  rw [visit_eq (begun_shift hb k)]
  cases b <;> exact hs'

end

theorem frames_of_settle_nil : ∀ {done : Option Expr} {fs : List Frame} {roots : List Expr}
    {s : Scan}, settle [] done fs roots = .ok s → s.frames = []
  | done, [], roots, s, h => by cases h; rfl
  | done, f :: fs, roots, s, h => by
    rw [settle] at h
    cases hm : (f.receive done).move [] with
    | error fault => rw [hm] at h; cases h
    | ok m =>
      rw [hm] at h
      cases m with
      | close e => exact frames_of_settle_nil h
      | wait g =>
        generalize f.receive done = f at hm
        cases f with
        | block i l depth es => cases hm
        | call i n l d counted es =>
          by_cases hc : d.consumes ≤ counted
          · simp [Frame.move, hc] at hm
          · simp [Frame.move, hc] at hm

theorem frames_of_visit_nil {table : Table} {index : Nat} {e : Entry} {s r : Scan}
    (h : visit table index e [] s = .ok r) : r.frames = [] := by
  obtain ⟨b, -, hs⟩ := settle_of_visit h
  exact frames_of_settle_nil hs

/-! ## Scans -/

section
variable {table : Table}

theorem outcome_append (a : Program) {b : Program} {forest : List Expr} : ∀ {s : Scan},
    s.outcome table b = .ok forest → (b = [] → s.frames = []) →
      (s.shift a.length).outcome table (a ++ b) = Scan.outcome table a ⟨[], forest⟩ := by
  induction b using List.reverseRecOn with
  | nil =>
    rintro ⟨frames, roots⟩ h hf
    obtain rfl : frames = [] := hf rfl
    rw [outcome_nil] at h
    cases h
    rw [List.append_nil]
    rfl
  | append_singleton b e ih =>
    intro s h _
    rw [outcome_snoc] at h
    obtain ⟨r, hr, hforest⟩ := exists_of_bind_eq_ok h
    have hv := visit_append a.reverse a.length hr
    rw [← List.append_assoc, outcome_snoc, List.length_append, Nat.add_comm,
      List.reverse_append, hv, Except.bind]
    refine ih hforest fun hb => ?_
    subst hb
    exact frames_of_visit_nil hr

theorem settle_roots (rest : List Entry) (found : List Expr) : ∀ (done : Option Expr)
    (fs : List Frame) (roots : List Expr), settle rest done fs (roots ++ found) =
      (settle rest done fs roots).map fun s => ⟨s.frames, s.roots ++ found⟩
  | done, [], roots => by simp [settle, Except.map]
  | done, f :: fs, roots => by
    simp only [settle]
    cases (f.receive done).move rest with
    | error fault => rfl
    | ok m =>
      cases m with
      | wait f => rfl
      | close e => exact settle_roots rest found (some e) fs roots

theorem visit_roots (index : Nat) (e : Entry) (rest : List Entry) (found : List Expr)
    (s : Scan) : visit table index e rest ⟨s.frames, s.roots ++ found⟩ =
      (visit table index e rest s).map fun s => ⟨s.frames, s.roots ++ found⟩ := by
  cases hb : Begun.ofEntry table index e with
  | error fault => rw [visit, visit, hb]; rfl
  | ok b =>
    rw [visit_eq hb, visit_eq hb]
    exact settle_roots rest found _ _ _

theorem outcome_roots (found : List Expr) (a : Program) : ∀ s : Scan,
    Scan.outcome table a ⟨s.frames, s.roots ++ found⟩ =
      (s.outcome table a).map (· ++ found) := by
  induction a using List.reverseRecOn with
  | nil => intro s; rfl
  | append_singleton a e ih =>
    intro s
    rw [outcome_snoc, outcome_snoc, visit_roots]
    cases visit table a.length e a.reverse s with
    | error fault => rfl
    | ok r => exact ih r

/-- **Programs in a row.** Behind any program, a program that stands for a forest adds this forest
at the end and changes nothing else, not even a fault. -/
theorem reconstruct_append (a : Program) {b : Program} {forest : List Expr}
    (h : (reconstruct table b).outcome = .ok forest) :
    (reconstruct table (a ++ b)).outcome = (reconstruct table a).outcome.map (· ++ forest) := by
  calc (reconstruct table (a ++ b)).outcome
      = (Scan.shift a.length ⟨[], []⟩).outcome table (a ++ b) := rfl
    _ = Scan.outcome table a ⟨[], forest⟩ := outcome_append a h fun _ => rfl
    _ = (Scan.outcome table a ⟨[], []⟩).map (· ++ forest) := outcome_roots forest a ⟨[], []⟩

end

/-- In the part behind, a sum takes an operand across a brace and a block leaves its brace
unvisited; the part in front fails. -/
theorem reconstruct_append_of_crossing :
    let a : Program := [.instruction (.pushNumber (.int 5) .null),
      .instruction (.pushNumber (.int 6) .null), .instruction (.invoke blockOpen .null),
      .instruction (.invoke "+" .null), .instruction (.invoke blockClose .null)]
    let b : Program := [.instruction (.pushNumber (.int 1) .null),
      .instruction (.invoke blockOpen .null), .instruction (.pushNumber (.int 2) .null),
      .instruction (.invoke "+" .null), .instruction (.invoke blockOpen .null),
      .instruction (.pushText "x" .null), .instruction (.invoke blockClose .null)]
    let forest : List Expr := [.call "+" 2 1 .null [.literal .number (.number (.int 1)) .null,
      .literal .number (.number (.int 2)) .null],
      .block 0 1 .null [.literal .text (.text "x") .null]]
    (reconstruct .builtin b).outcome = .ok forest ∧
      (reconstruct .builtin (a ++ b)).outcome = .error (.unterminatedBlock 4) ∧
      (reconstruct .builtin (b ++ b)).outcome = .ok (forest ++ forest) := by
  intro a b forest
  have h : (reconstruct .builtin b).outcome = .ok forest := rfl
  refine ⟨h, (reconstruct_append a h).trans rfl, ?_⟩
  rw [reconstruct_append b h, h]
  rfl

end StackForest
