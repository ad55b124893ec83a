import StackForest.Proofs.ShiftReduce

/-!
# The scan against shift-reduce parsing

The scan from the end has the outcome of shift-reduce parsing from the start. The frames that are
open in front of a program part take what they still want from the stack that the part leaves
(`finish`): the innermost frame first, whose tree then goes on top of the stack.
-/

namespace StackForest

open ShiftReduce

namespace Scan

def outcome (table : Table) (p : Program) (s : Scan) : Except TreeFault (List Expr) :=
  (scan table p.length p.reverse s []).outcome

def give (e : Expr) : Scan → Scan
  | ⟨[], roots⟩ => ⟨[], e :: roots⟩
  | ⟨f :: fs, roots⟩ => ⟨f.add e :: fs, roots⟩

end Scan

theorem scan_outcome (table : Table) : ∀ (es : List Entry) (n : Nat) (s : Scan) (v w : List Nat),
    (scan table n es s v).outcome = (scan table n es s w).outcome
  | [], _, _, _, _ => rfl
  | e :: es, n, s, v, w => by
    simp only [scan]
    cases visit table (n - 1) e es s with
    | error fault => rfl
    | ok s => exact scan_outcome table es _ s _ _

theorem outcome_nil (table : Table) (s : Scan) : s.outcome table [] = .ok s.roots := rfl

theorem outcome_snoc (table : Table) (p : Program) (e : Entry) (s : Scan) :
    s.outcome table (p ++ [e]) =
      (visit table p.length e p.reverse s).bind (Scan.outcome table p) := by
  simp only [Scan.outcome, List.length_append, List.length_singleton, List.reverse_append,
    List.reverse_singleton, List.singleton_append, scan, Nat.add_sub_cancel]
  cases visit table p.length e p.reverse s with
  | error fault => rfl
  | ok s => exact scan_outcome table _ _ s _ _

theorem settle_some (rest : List Entry) (e : Expr) (s : Scan) :
    settle rest (some e) s.frames s.roots =
      settle rest none (s.give e).frames (s.give e).roots := by
  obtain ⟨_ | ⟨f, fs⟩, roots⟩ := s <;> rfl

/-! ## What a visit settles -/

namespace Begun

def done : Begun → Option Expr
  | leaf e => some e
  | _ => none

def opened : Begun → List Frame
  | frame f => [f]
  | _ => []

end Begun

section
variable {table : Table} {index : Nat} {e : Entry}

theorem visit_eq {b : Begun} (h : Begun.ofEntry table index e = .ok b) (rest : List Entry)
    (s : Scan) :
    visit table index e rest s = settle rest b.done (b.opened ++ s.frames) s.roots := by
  rw [visit, h]
  cases b <;> rfl

theorem settle_of_visit {rest : List Entry} {s r : Scan}
    (h : visit table index e rest s = .ok r) :
    ∃ b, Begun.ofEntry table index e = .ok b ∧
      settle rest b.done (b.opened ++ s.frames) s.roots = .ok r := by
  cases hb : Begun.ofEntry table index e with
  | error fault => rw [visit, hb] at h; cases h
  | ok b => exact ⟨b, rfl, by rw [← visit_eq hb, h]⟩

end

/-! ## What open frames take from a stack -/

/-- The tree of a frame that takes from a stack what it still wants, and what it leaves. -/
def Frame.reduce : Frame → List Item → Except TreeFault (Expr × List Item)
  | call i n l d counted es, s =>
    match popOperands (d.consumes - counted) s es with
    | none => .error (.missingOperand n i)
    | some (es, s) => .ok (.call n d.consumes d.produces l es, s)
  | block i l _ es, s =>
    match popBlock s es with
    | none => .error (.unterminatedBlock i)
    | some (es, s) => .ok (.ofChildren l es, s)

def finish : List Frame → List Expr → List Item → Except TreeFault (List Expr)
  | [], roots, s => .ok (trees s ++ roots)
  | f :: fs, roots, s => (f.reduce s).bind fun r => finish fs roots (.tree r.1 :: r.2)

/-- Frames that wait for a tree, which is a block or not. A call still wants an operand, which no
block can be. A block that waits for a block has counted its brace too. -/
def Waiting (block : Bool) : List Frame → Prop
  | [] => True
  | .call _ _ _ d counted _ :: fs => counted < d.consumes ∧ Waiting false fs
  | .block _ _ depth _ :: fs => depth = (if block then 2 else 1) ∧ Waiting true fs

def Settling : List Frame → Prop
  | [] => True
  | .call _ _ _ _ _ _ :: fs => Waiting false fs
  | .block _ _ depth _ :: fs => depth = 1 ∧ Waiting true fs

theorem settling_of_waiting : ∀ {fs : List Frame}, Waiting false fs → Settling fs
  | [], _ => trivial
  | .call _ _ _ _ _ _ :: _, h => h.2
  | .block _ _ _ _ :: _, h => h

theorem settling_give {e : Expr} {s : Scan} (h : Waiting false s.frames) :
    Settling (s.give e).frames := by
  obtain ⟨_ | ⟨f, fs⟩, roots⟩ := s
  · trivial
  · cases f with
    | call i n l d counted es => exact h.2
    | block i l depth es => exact h

theorem finish_give {b : Bool} {e : Expr} : ∀ {s : Scan}, Waiting b s.frames → ∀ t : List Item,
    finish s.frames s.roots (.tree e :: t) = finish (s.give e).frames (s.give e).roots t
  | ⟨[], roots⟩, _, t => by simp [finish, Scan.give, trees]
  | ⟨.block i l depth es :: fs, roots⟩, _, t => rfl
  | ⟨.call i n l d counted es :: fs, roots⟩, h, t => by
    obtain ⟨k, hk⟩ : ∃ k, d.consumes - counted = k + 1 :=
      ⟨d.consumes - counted - 1, by have := h.1; omega⟩
    have hk' : d.consumes - (counted + 1) = k := by omega
    cases he : e.isBlock <;>
      simp [finish, Scan.give, Frame.add, Frame.reduce, popOperands, he, hk, hk']

def dropMark : List Item → List Item
  | .mark :: s => s
  | s => s

theorem trees_dropMark (s : List Item) : trees (dropMark s) = trees s := by
  unfold dropMark
  split <;> rfl

theorem finish_dropMark_call {i n l d counted es fs roots} (h : counted < Effect.consumes d)
    (s : List Item) :
    finish (.call i n l d counted es :: fs) roots (dropMark s) =
      finish (.call i n l d counted es :: fs) roots s := by
  obtain ⟨k, hk⟩ : ∃ k, d.consumes - counted = k + 1 := ⟨d.consumes - counted - 1, by omega⟩
  unfold dropMark
  split
  · simp [finish, Frame.reduce, popOperands, hk]
  · rfl

/-! ## Settling -/

theorem settle_block {e : Entry} (he : e.isOpen = true) (rest : List Entry) (b : Expr)
    (hb : b.isBlock = true) : ∀ {fs : List Frame}, Waiting true fs → ∀ roots : List Expr,
    ∃ s, settle (e :: rest) (some b) fs roots = .ok s ∧ Waiting false s.frames ∧
      ∀ t, finish s.frames s.roots t = finish fs roots (.tree b :: t)
  | [], _, roots => ⟨⟨[], b :: roots⟩, rfl, trivial, fun t => by simp [finish, trees]⟩
  | .call i n l d counted es :: fs, h, roots => by
    have hw : settle (e :: rest) (some b) (.call i n l d counted es :: fs) roots =
        .ok ⟨.call i n l d counted (b :: es) :: fs, roots⟩ := by
      simp [settle, Frame.receive, Frame.add, Frame.move, hb, Nat.not_le.mpr h.1]
    refine ⟨_, hw, h, fun t => ?_⟩
    rw [finish_give (s := ⟨.call i n l d counted es :: fs, roots⟩) h]
    simp [Scan.give, Frame.add, hb]
  | .block i l depth es :: fs, h, roots => by
    obtain ⟨rfl, hfs⟩ := h
    have hw : settle (e :: rest) (some b) (.block i l 2 es :: fs) roots =
        .ok ⟨.block i l 1 (b :: es) :: fs, roots⟩ := by
      simp [settle, Frame.receive, Frame.add, Frame.move, nextDepth_eq, he]
    exact ⟨_, hw, ⟨rfl, hfs⟩, fun t => rfl⟩

theorem run_snoc_open {e : Entry} (he : e.isOpen = true) (table : Table) (p : Program) :
    run table 0 (p ++ [e]) [] = (run table 0 p []).map (.mark :: ·) := by
  have hs : step table (0 + p.length) e = fun s => .ok (.mark :: s) := by
    funext s
    obtain ⟨l, rfl⟩ := Entry.eq_invoke_of_isOpen he
    simp [step]
  rw [run_snoc, hs]
  cases run table 0 p [] <;> rfl

theorem dropMark_of_shift {table : Table} {e : Entry} {s r : List Item} (h : Shift table e s r)
    (he : e.isOpen = false) : dropMark r = r := by
  cases h with
  | opening => simp at he
  | _ => rfl

def endsInClose (p : Program) : Bool := p.getLast?.any Entry.isClose

theorem endsInClose_snoc (p : Program) (e : Entry) : endsInClose (p ++ [e]) = e.isClose := by
  simp [endsInClose]

/-- Frames that wait in front of `p` take what they want from the stack that the parser leaves
behind `p`. An opening brace next to them ends none of them, so its mark is not among what they
take. -/
def WaitingScan (table : Table) (p : Program) : Prop :=
  ∀ s : Scan, Waiting (endsInClose p) s.frames → (p = [] → s.frames = []) →
    s.outcome table p = (run table 0 p []).bind fun t => finish s.frames s.roots (dropMark t)

def SettlingScan (table : Table) (p : Program) : Prop :=
  ∀ s : Scan, Settling s.frames →
    (settle p.reverse none s.frames s.roots).bind (Scan.outcome table p) =
      (run table 0 p []).bind (finish s.frames s.roots)

section
variable {table : Table} {p : Program} (hp : WaitingScan table p)
include hp

theorem settling_root (roots : List Expr) :
    (settle p.reverse none [] roots).bind (Scan.outcome table p) =
      (run table 0 p []).bind (finish [] roots) := by
  simp only [settle, Option.toList_none, List.nil_append, Except.bind]
  rw [hp ⟨[], roots⟩ trivial fun _ => rfl]
  simp only [finish, trees_dropMark]
  rfl

theorem settling_call {i n l d counted es} {fs : List Frame} {roots : List Expr}
    (hc : counted < Effect.consumes d) (hfs : Waiting false fs) :
    (settle p.reverse none (.call i n l d counted es :: fs) roots).bind (Scan.outcome table p) =
      (run table 0 p []).bind (finish (.call i n l d counted es :: fs) roots) := by
  have hlt := Nat.not_le.mpr hc
  rcases List.eq_nil_or_concat p with rfl | ⟨r, x, rfl⟩
  · obtain ⟨k, hk⟩ : ∃ k, d.consumes - counted = k + 1 := ⟨d.consumes - counted - 1, by omega⟩
    simp [settle, Frame.receive, Frame.move, hlt, run, Except.bind, finish, Frame.reduce, hk,
      popOperands]
  · rw [List.concat_eq_append] at hp ⊢
    have hw : settle (r ++ [x]).reverse none (.call i n l d counted es :: fs) roots =
        .ok ⟨.call i n l d counted es :: fs, roots⟩ := by
      simp [settle, Frame.receive, Frame.move, hlt]
    rw [hw, Except.bind, hp ⟨.call i n l d counted es :: fs, roots⟩ ⟨hc, hfs⟩ (by simp)]
    simp only [finish_dropMark_call hc]

theorem settling_block {i l es} {fs : List Frame} {roots : List Expr} (hfs : Waiting true fs) :
    (settle p.reverse none (.block i l 1 es :: fs) roots).bind (Scan.outcome table p) =
      (run table 0 p []).bind (finish (.block i l 1 es :: fs) roots) := by
  rcases List.eq_nil_or_concat p with rfl | ⟨r, x, rfl⟩
  · rfl
  rw [List.concat_eq_append] at hp ⊢
  cases hx : x.isOpen with
  | true =>
    -- the block ends here, and the brace is left to the frame below
    have hm : settle (r ++ [x]).reverse none (.block i l 1 es :: fs) roots =
        settle (r ++ [x]).reverse (some (.ofChildren l es)) fs roots := by
      simp [settle, Frame.receive, Frame.move, nextDepth_eq, hx]
    obtain ⟨s, hs, hw, hf⟩ := settle_block hx r.reverse (.ofChildren l es) rfl hfs roots
    rw [← Entry.isClose_of_isOpen hx, ← endsInClose_snoc r x] at hw
    rw [hm, List.reverse_append, List.reverse_singleton, List.singleton_append, hs, Except.bind,
      hp s hw (by simp), run_snoc_open hx]
    cases run table 0 r [] with
    | error fault => rfl
    | ok t => exact hf t
  | false =>
    have hw : settle (r ++ [x]).reverse none (.block i l 1 es :: fs) roots =
        .ok ⟨.block i l (if x.isClose then 2 else 1) es :: fs, roots⟩ := by
      cases hc : x.isClose <;> simp [settle, Frame.receive, Frame.move, nextDepth_eq, hx, hc]
    rw [hw, Except.bind, hp ⟨.block i l _ es :: fs, roots⟩
      ⟨by rw [endsInClose_snoc], hfs⟩ (by simp), run_snoc]
    cases run table 0 r [] with
    | error fault => rfl
    | ok t =>
      simp only [Except.bind]
      cases hs : step table (0 + r.length) x t with
      | error fault => rfl
      | ok t' => simp only [dropMark_of_shift (shift_of_step hs) hx]; rfl

theorem settlingScan_of_waitingScan : SettlingScan table p
  | ⟨[], roots⟩, _ => settling_root hp roots
  | ⟨.block i l depth es :: fs, roots⟩, h => by
    obtain ⟨rfl, hfs⟩ := h
    exact settling_block hp hfs
  | ⟨.call i n l d counted es :: fs, roots⟩, h => by
    by_cases hc : d.consumes ≤ counted
    · have hm : settle p.reverse none (.call i n l d counted es :: fs) roots =
          settle p.reverse (some (.call n d.consumes d.produces l es)) fs roots := by
        simp [settle, Frame.receive, Frame.move, hc]
      have hf : finish (.call i n l d counted es :: fs) roots =
          fun t => finish fs roots (.tree (.call n d.consumes d.produces l es) :: t) := by
        funext t
        simp [finish, Frame.reduce, Nat.sub_eq_zero_of_le hc, popOperands, Except.bind]
      rw [hm, hf, settle_some _ _ ⟨fs, roots⟩,
        settlingScan_of_waitingScan (Scan.give _ ⟨fs, roots⟩) (settling_give h)]
      congr 1; funext t
      exact (finish_give (s := ⟨fs, roots⟩) h t).symm
    · exact settling_call hp (Nat.lt_of_not_le hc) h
termination_by s => s.frames.length
decreasing_by cases fs <;> simp [Scan.give]

end

/-! ## Scanning -/

section
variable {table : Table} {p : Program} (hp : SettlingScan table p) {e : Entry} {s : Scan}
include hp

theorem outcome_leaf {a : Expr} (hw : Waiting false s.frames)
    (hb : ∀ index, Begun.ofEntry table index e = .ok (.leaf a))
    (hs : ∀ index t, step table index e t = .ok (.tree a :: t)) :
    s.outcome table (p ++ [e]) =
      (run table 0 (p ++ [e]) []).bind fun t => finish s.frames s.roots (dropMark t) := by
  rw [outcome_snoc, run_snoc]
  simp only [visit, hb]
  rw [settle_some, hp _ (settling_give hw)]
  cases run table 0 p [] with
  | error fault => rfl
  | ok t =>
    simp only [Except.bind, hs, dropMark]
    exact (finish_give hw t).symm

theorem outcome_frame {f : Nat → Frame} (hw : Settling (f p.length :: s.frames))
    (hb : ∀ index, Begun.ofEntry table index e = .ok (.frame (f index)))
    (hs : ∀ index t, step table index e t = ((f index).reduce t).map fun r => .tree r.1 :: r.2) :
    s.outcome table (p ++ [e]) =
      (run table 0 (p ++ [e]) []).bind fun t => finish s.frames s.roots (dropMark t) := by
  rw [outcome_snoc, run_snoc]
  simp only [visit, hb]
  rw [hp ⟨f p.length :: s.frames, s.roots⟩ hw]
  cases run table 0 p [] with
  | error fault => rfl
  | ok t =>
    simp only [Except.bind, hs, Nat.zero_add, finish]
    cases (f p.length).reduce t <;> rfl

theorem waitingScan_snoc (he : e.isKnown table = true) : WaitingScan table (p ++ [e]) := by
  intro s hw _
  rw [endsInClose_snoc] at hw
  cases e with
  | foreign v => cases he
  | instruction i =>
    cases i with
    | pushNumber n l => exact outcome_leaf hp hw (fun _ => rfl) fun _ _ => rfl
    | pushText t l => exact outcome_leaf hp hw (fun _ => rfl) fun _ _ => rfl
    | invoke name l =>
      by_cases hc : name = blockClose
      · subst hc
        refine outcome_frame hp (f := fun index => .block index l 1 []) ⟨rfl, hw⟩
          (fun _ => by simp [Begun.ofEntry]) fun _ t => ?_
        simp only [step, open_ne_close.symm, if_false, if_true, Frame.reduce]
        cases popBlock t [] <;> rfl
      have hcl : (Entry.instruction (.invoke name l)).isClose = false := by simpa using hc
      rw [hcl] at hw
      by_cases ho : name = blockOpen
      · subst ho
        rw [outcome_snoc, run_snoc]
        simp only [visit, Begun.ofEntry, open_ne_close, if_false, if_true]
        rw [hp s (settling_of_waiting hw)]
        cases run table 0 p [] <;> rfl
      obtain ⟨effect, hl⟩ : ∃ effect, table.lookup? name = some effect := by
        simpa [Entry.isKnown, ho, hc, Option.isSome_iff_exists] using he
      refine outcome_frame hp
        (f := fun index => .call index name l effect 0 []) hw
        (fun _ => by simp [Begun.ofEntry, hc, ho, hl]) fun _ t => ?_
      simp only [step, ho, hc, if_false, hl, Frame.reduce, Nat.sub_zero]
      cases popOperands effect.consumes t [] <;> rfl

end

theorem waitingScan_of_known {table : Table} {p : Program}
    (h : ∀ e ∈ p, e.isKnown table = true) : WaitingScan table p := by
  induction p using List.reverseRecOn with
  | nil =>
    rintro ⟨frames, roots⟩ - h
    obtain rfl : frames = [] := h rfl
    rfl
  | append_singleton p e ih =>
    have hp := settlingScan_of_waitingScan (ih fun x hx => h x (by simp [hx]))
    exact waitingScan_snoc hp (h e (by simp))

theorem reconstruct_eq_run {table : Table} {p : Program} (h : ∀ e ∈ p, e.isKnown table = true) :
    (reconstruct table p).outcome = (run table 0 p []).map trees := by
  have hs : (reconstruct table p).outcome = Scan.outcome table p ⟨[], []⟩ := rfl
  rw [hs, waitingScan_of_known h ⟨[], []⟩ trivial fun _ => rfl]
  cases run table 0 p [] with
  | error fault => rfl
  | ok s => simp [Except.bind, Except.map, finish, trees_dropMark]

theorem known_of_visit {table : Table} {index : Nat} {e : Entry} {rest : List Entry} {s r : Scan}
    (h : visit table index e rest s = .ok r) : e.isKnown table = true := by
  cases e with
  | foreign v => cases h
  | instruction i =>
    cases i with
    | invoke name l =>
      by_cases hc : name = blockClose
      · simp [Entry.isKnown, hc]
      by_cases ho : name = blockOpen
      · simp [Entry.isKnown, ho]
      cases hl : table.lookup? name with
      | none => simp [visit, Begun.ofEntry, hc, ho, hl] at h
      | some effect => simp [Entry.isKnown, hl]
    | _ => rfl

theorem known_of_scan {table : Table} {forest : List Expr} : ∀ (es : List Entry) {n s v},
    (scan table n es s v).outcome = .ok forest → ∀ e ∈ es, e.isKnown table = true
  | [], _, _, _, _ => by simp
  | e :: es, n, s, v, h => by
    rw [scan] at h
    cases hv : visit table (n - 1) e es s with
    | error fault => simp [hv] at h
    | ok r =>
      simp only [hv] at h
      exact List.forall_mem_cons.mpr ⟨known_of_visit hv, known_of_scan es h⟩

theorem known_of_reconstruct {table : Table} {p : Program} {forest : List Expr}
    (h : (reconstruct table p).outcome = .ok forest) : ∀ e ∈ p, e.isKnown table = true := by
  simpa using known_of_scan p.reverse h

theorem exists_run_of_reconstruct {table : Table} {p : Program} {forest : List Expr}
    (h : (reconstruct table p).outcome = .ok forest) :
    ∃ s, run table 0 p [] = .ok s ∧ trees s = forest := by
  rw [reconstruct_eq_run (known_of_reconstruct h)] at h
  cases hs : run table 0 p [] with
  | error fault => rw [hs] at h; cases h
  | ok s =>
    rw [hs] at h
    cases h
    exact ⟨s, rfl, rfl⟩

/-- **Two directions, one forest.** The scan from the end has the outcome of parsing from the
start. It fails for the first entry that the parser cannot do, with its fault. -/
theorem reconstruct_eq_parse {table : Table} {p : Program}
    (h : ∀ e ∈ p, e.isKnown table = true) :
    (reconstruct table p).outcome = parse table p ∧
      ∀ fault, (reconstruct table p).outcome = .error fault ↔ ∃ q e r s, p = q ++ e :: r ∧
        run table 0 q [] = .ok s ∧ step table q.length e s = .error fault := by
  have hr := reconstruct_eq_run h
  refine ⟨hr, fun fault => ?_⟩
  have hm : (run table 0 p []).map trees = .error fault ↔ run table 0 p [] = .error fault := by
    cases run table 0 p [] <;> simp [Except.map]
  rw [hr, hm, run_eq_error_iff]
  simp only [Nat.zero_add]

/-- A sum inside a block that takes its operands from in front of the block: the brace is gone when
the block looks for it. -/
theorem reconstruct_eq_parse_of_crossing :
    let p : Program := [.instruction (.pushNumber (.int 5) .null),
      .instruction (.pushNumber (.int 6) .null), .instruction (.invoke blockOpen .null),
      .instruction (.invoke "+" .null), .instruction (.invoke blockClose .null)]
    (∀ e ∈ p, e.isKnown .builtin = true) ∧ (reconstruct .builtin p).outcome = parse .builtin p ∧
      ∃ q e r s, p = q ++ e :: r ∧ run .builtin 0 q [] = .ok s ∧
        step .builtin q.length e s = .error (.unterminatedBlock 4) := by
  intro p
  have hk : ∀ e ∈ p, e.isKnown .builtin = true := by decide
  exact ⟨hk, (reconstruct_eq_parse hk).1, ((reconstruct_eq_parse hk).2 _).mp rfl⟩

end StackForest
