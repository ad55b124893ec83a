import StackForest.Proofs.Look

/-!
# Open frames

What holds of all open frames whenever the scan looks at the innermost (`steady_of_reaches`). The
depth of a block counts the brace of a block inside it up to the next look at the brace itself.
-/

namespace StackForest

namespace Frame

def index : Frame → Nat
  | call i _ _ _ _ _ => i
  | block i _ _ _ => i

def isBlock : Frame → Bool
  | call _ _ _ _ _ _ => false
  | block _ _ _ _ => true

def CountsOperands : Frame → Prop
  | call _ _ _ _ counted es => counted = es.countP fun e => !e.isBlock
  | block _ _ _ _ => True

theorem index_add (e : Expr) (f : Frame) : (f.add e).index = f.index := by cases f <;> rfl

theorem countsOperands_add {f : Frame} (h : f.CountsOperands) (e : Expr) :
    (f.add e).CountsOperands := by
  cases f with
  | block i l depth es => trivial
  | call i n l d counted es =>
    have hcounted : counted = es.countP fun e => !e.isBlock := h
    cases he : e.isBlock <;> simp [add, CountsOperands, he, hcounted]

theorem keeps_of_wait {f g : Frame} {rest : List Entry} (h : f.move rest = .ok (.wait g)) :
    g.index = f.index ∧ (f.CountsOperands → g.CountsOperands) := by
  obtain ⟨x, rest', -, ⟨i, n, l, d, counted, es, rfl, rfl, -⟩ |
    ⟨i, l, depth, es, rfl, rfl, -⟩⟩ := wait_cases h
  · exact ⟨rfl, id⟩
  · exact ⟨rfl, fun _ => trivial⟩

theorem close_block {i : Nat} {l : Value} {depth : Nat} {es : List Expr} {rest : List Entry}
    {b : Expr} (h : (block i l depth es).move rest = .ok (.close b)) :
    ∃ x rest', rest = x :: rest' ∧ nextDepth depth x = 0 ∧ b = .ofChildren l es := by
  cases rest with
  | nil => cases h
  | cons x rest =>
    by_cases hd : nextDepth depth x = 0
    · simp only [move, if_pos hd] at h
      cases h
      exact ⟨x, rest, rfl, hd, rfl⟩
    · simp only [move, if_neg hd] at h
      cases h

theorem isOpen_of_nextDepth {x : Entry} (h : nextDepth 1 x = 0) : x.isOpen = true := by
  rw [nextDepth_eq] at h
  cases hx : x.isOpen with
  | true => rfl
  | false =>
    rw [hx, if_neg Bool.false_ne_true] at h
    split at h <;> omega

end Frame

namespace Look

/-! ## Frames in order -/

theorem map_index_of_rests {rest : List Entry} {frames fs : List Frame}
    (h : Rests rest frames fs) : fs.map Frame.index = frames.map Frame.index := by
  cases h with
  | none => rfl
  | wait hm => rw [List.map_cons, List.map_cons, (Frame.keeps_of_wait hm).1]

theorem counts_of_rests {rest : List Entry} {frames fs : List Frame} (h : Rests rest frames fs)
    (hc : ∀ f ∈ frames, f.CountsOperands) : ∀ f ∈ fs, f.CountsOperands := by
  cases h with
  | none => exact hc
  | wait hm =>
    rw [List.forall_mem_cons] at hc ⊢
    exact ⟨(Frame.keeps_of_wait hm).2 hc.1, hc.2⟩

theorem map_index_give (e : Expr) (s : Scan) :
    (s.give e).frames.map Frame.index = s.frames.map Frame.index := by
  obtain ⟨_ | ⟨f, fs⟩, roots⟩ := s
  · rfl
  · simp only [Scan.give, List.map_cons, Frame.index_add]

/-! ## What every look keeps -/

/-- The frame that was closed last is a block, which ended at the opening brace in front of the
cursor. -/
def AfterBlock (p : Program) (l : Look) : Prop :=
  ∃ f x b, l.closed = some f ∧ f.isBlock = true ∧ 0 < l.cursor ∧ p[l.cursor - 1]? = some x ∧
    x.isOpen = true ∧ f.move (l.ahead p) = .ok (.close b)

/-- The open frames in order, with what they have counted. Behind a block that was closed just now
the frames still wait for a tree that is a block. -/
structure Keeps (p : Program) (l : Look) : Prop where
  indices : (l.frames.map Frame.index).Pairwise (· < ·)
  cursor : ∀ i ∈ l.frames.map Frame.index, l.cursor ≤ i
  counts : ∀ f ∈ l.frames, f.CountsOperands
  settling : l.closed.any Frame.isBlock = false → Settling l.frames
  waiting : l.closed.any Frame.isBlock = true → l.AfterBlock p ∧ Waiting true l.frames

theorem waiting_tail {f : Frame} {fs : List Frame} {b : Bool} (h : Waiting b (f :: fs)) :
    Waiting f.isBlock fs := by
  cases f with
  | call i n v d counted es => exact h.2
  | block i v depth es => exact h.2

theorem settling_tail {f : Frame} {fs : List Frame} (h : Settling (f :: fs)) :
    Waiting f.isBlock fs := by
  cases f with
  | call i n v d counted es => exact h
  | block i v depth es => exact h.2

theorem Keeps.tail {p : Program} {l : Look} (h : Keeps p l) {f : Frame} {fs : List Frame}
    (hf : l.frames = f :: fs) : Waiting f.isBlock fs := by
  cases hb : l.closed.any Frame.isBlock with
  | false => exact settling_tail (hf ▸ h.settling hb)
  | true => exact waiting_tail (hf ▸ (h.waiting hb).2)

theorem keeps_start (p : Program) : Keeps p (start p) where
  indices := .nil
  cursor := by simp [start]
  counts := by simp [start]
  settling := fun _ => trivial
  waiting := by simp [start]

theorem counts_give {s : Scan} (h : ∀ f ∈ s.frames, f.CountsOperands) (e : Expr) :
    ∀ f ∈ (s.give e).frames, f.CountsOperands := by
  obtain ⟨_ | ⟨f, fs⟩, roots⟩ := s
  · exact h
  · simp only [Scan.give, List.forall_mem_cons] at h ⊢
    exact ⟨Frame.countsOperands_add h.1 e, h.2⟩

theorem waiting_give {s : Scan} {b : Bool} (h : Waiting b s.frames) {e : Expr}
    (he : e.isBlock = true) : Waiting b (s.give e).frames := by
  obtain ⟨_ | ⟨f, fs⟩, roots⟩ := s
  · exact h
  · cases f with
    | call i n v d counted es =>
      simp only [Scan.give, Frame.add, he, if_true]
      exact h
    | block i v depth es => exact h

theorem begun_cases {table : Table} {index : Nat} {x : Entry} {b : Begun}
    (h : Begun.ofEntry table index x = .ok b) :
    (x.isClose = false ∧ ((∃ e, b = .leaf e) ∨ b = .nothing ∨
      ∃ n v d, b = .frame (.call index n v d 0 []))) ∨
    x.isClose = true ∧ ∃ v, b = .frame (.block index v 1 []) := by
  cases x with
  | foreign v => cases h
  | instruction i =>
    cases i with
    | pushNumber n v => cases h; exact .inl ⟨rfl, .inl ⟨_, rfl⟩⟩
    | pushText t v => cases h; exact .inl ⟨rfl, .inl ⟨_, rfl⟩⟩
    | invoke name v =>
      rw [Entry.isClose_invoke]
      simp only [Begun.ofEntry] at h
      by_cases hc : name = blockClose
      · rw [if_pos hc] at h
        cases h
        exact .inr ⟨by simp [hc], _, rfl⟩
      have hclose : (name == blockClose) = false := by simp [hc]
      by_cases ho : name = blockOpen
      · rw [if_neg hc, if_pos ho] at h
        cases h
        exact .inl ⟨hclose, .inr (.inl rfl)⟩
      · rw [if_neg hc, if_neg ho] at h
        cases hl : table.lookup? name with
        | none => rw [hl] at h; cases h
        | some effect =>
          rw [hl] at h
          cases h
          exact .inl ⟨hclose, .inr (.inr ⟨_, _, _, rfl⟩)⟩

section
variable {table : Table} {p : Program} {l m : Look} (hle : l.cursor ≤ p.length) (hl : Keeps p l)
include hl

theorem depth_of_head {i v depth es fs} (hf : l.frames = .block i v depth es :: fs) :
    depth = if l.closed.any Frame.isBlock then 2 else 1 := by
  cases hb : l.closed.any Frame.isBlock with
  | false => exact (hf ▸ hl.settling hb : Settling (.block i v depth es :: fs)).1
  | true => exact (hf ▸ (hl.waiting hb).2 : Waiting true (.block i v depth es :: fs)).1

include hle in
theorem isOpen_of_closed (hb : l.closed.any Frame.isBlock = true) {x : Entry} {rest : List Entry}
    (ha : l.ahead p = x :: rest) : x.isOpen = true := by
  obtain ⟨-, y, -, -, -, -, hy, hopen, -⟩ := (hl.waiting hb).1
  obtain ⟨j, hj, hx, -⟩ := cursor_of_ahead ha hle
  rw [hj, Nat.add_sub_cancel, hx] at hy
  cases hy
  exact hopen

include hle in
theorem isOpen_of_ends {i v depth es fs} (hf : l.frames = .block i v depth es :: fs) {x : Entry}
    {rest : List Entry} (ha : l.ahead p = x :: rest) (hd : Frame.nextDepth depth x = 0) :
    x.isOpen = true ∧ l.closed.any Frame.isBlock = false := by
  have hdepth := depth_of_head hl hf
  cases hb : l.closed.any Frame.isBlock with
  | false =>
    rw [hb, if_neg Bool.false_ne_true] at hdepth
    subst hdepth
    exact ⟨Frame.isOpen_of_nextDepth hd, rfl⟩
  | true =>
    -- the depth is two in front of an opening brace
    rw [hb, if_pos rfl] at hdepth
    rw [hdepth, nextDepth_eq, if_pos (isOpen_of_closed hle hl hb ha)] at hd
    cases hd

include hle in
theorem waiting_of_rests {fs : List Frame} {x : Entry} {rest : List Entry}
    (hr : Rests (l.ahead p) l.frames fs) (ha : l.ahead p = x :: rest) :
    Waiting x.isClose fs := by
  generalize hframes : l.frames = frames at hr
  cases hr with
  | none => trivial
  | @wait f g out hm =>
    have htail := hl.tail hframes
    obtain ⟨x', rest', ha', ⟨i, n, v, d, counted, es, rfl, rfl, hc⟩ |
      ⟨i, v, depth, es, rfl, rfl, hd⟩⟩ := Frame.wait_cases hm
    · exact ⟨hc, htail⟩
    -- a block takes the entry into its depth, and that is not zero
    rw [ha] at ha'
    cases ha'
    refine ⟨?_, htail⟩
    have hdepth := depth_of_head hl hframes
    rw [nextDepth_eq] at hd ⊢
    cases hb : l.closed.any Frame.isBlock with
    | false =>
      rw [hb, if_neg Bool.false_ne_true] at hdepth
      subst hdepth
      cases hx : x.isOpen with
      | false => simp
      | true => simp [hx] at hd
    | true =>
      have hx := isOpen_of_closed hle hl hb ha
      rw [hb, if_pos rfl] at hdepth
      rw [if_pos hx, Entry.isClose_of_isOpen hx, hdepth]
      rfl

include hle in
theorem keeps_of_close {f : Frame} {fs : List Frame} {e : Expr} (hf : l.frames = f :: fs)
    (hm : f.move (l.ahead p) = .ok (.close e)) :
    Keeps p ⟨Scan.give e ⟨fs, l.roots⟩, l.cursor, some f⟩ := by
  have hindices := hl.indices
  have hcursor := hl.cursor
  have hcounts := hl.counts
  have htail := hl.tail hf
  rw [hf, List.map_cons, List.pairwise_cons] at hindices
  rw [hf, List.map_cons, List.forall_mem_cons] at hcursor
  rw [hf, List.forall_mem_cons] at hcounts
  have hmap := map_index_give e ⟨fs, l.roots⟩
  refine ⟨?_, ?_, counts_give hcounts.2 e, ?_, ?_⟩
  · rw [hmap]
    exact hindices.2
  · rw [hmap]
    exact hcursor.2
  · intro hb
    rw [Option.any_some] at hb
    rw [hb] at htail
    exact settling_give htail
  · intro hb
    rw [Option.any_some] at hb
    cases f with
    | call i n v d counted es => cases hb
    | block i v depth es =>
      obtain ⟨x, rest, ha, hd, rfl⟩ := Frame.close_block hm
      obtain ⟨j, hj, hx, -⟩ := cursor_of_ahead ha hle
      have hopen := (isOpen_of_ends hle hl hf ha hd).1
      refine ⟨⟨_, x, _, rfl, rfl, pos_of_ahead ha, ?_, hopen, hm⟩, waiting_give htail rfl⟩
      simp only [hj, Nat.add_sub_cancel, hx]

theorem keeps_of_settling {s : Scan}
    (hindices : s.frames.map Frame.index = l.frames.map Frame.index ∨
      s.frames.map Frame.index = (l.cursor - 1) :: l.frames.map Frame.index)
    (hpos : 0 < l.cursor) (hcounts : ∀ f ∈ s.frames, f.CountsOperands)
    (hsettling : Settling s.frames) : Keeps p ⟨s, l.cursor - 1, none⟩ := by
  have hbelow : ∀ i ∈ l.frames.map Frame.index, l.cursor - 1 < i := by
    intro i hi
    have := hl.cursor i hi
    omega
  refine ⟨?_, ?_, hcounts, fun _ => hsettling, fun hb => by cases hb⟩
  · rcases hindices with h | h
    · rw [h]
      exact hl.indices
    · rw [h, List.pairwise_cons]
      exact ⟨hbelow, hl.indices⟩
  · rcases hindices with h | h
    · rw [h]
      exact fun i hi => Nat.le_of_lt (hbelow i hi)
    · rw [h, List.forall_mem_cons]
      exact ⟨Nat.le_refl _, fun i hi => Nat.le_of_lt (hbelow i hi)⟩

include hle in
theorem keeps_of_visit {fs : List Frame} {x : Entry} {rest : List Entry} {b : Begun}
    (hr : Rests (l.ahead p) l.frames fs) (ha : l.ahead p = x :: rest)
    (hb : Begun.ofEntry table (l.cursor - 1) x = .ok b) :
    Keeps p ⟨b.enter ⟨fs, l.roots⟩, l.cursor - 1, none⟩ := by
  have hpos := pos_of_ahead ha
  have hmap := map_index_of_rests hr
  have hcounts := counts_of_rests hr hl.counts
  have hwaiting := waiting_of_rests hle hl hr ha
  -- a literal, an opening brace and a call are no blocks; a closing brace opens one
  rcases begun_cases hb with ⟨hx, ⟨e, rfl⟩ | rfl | ⟨n, v, c, q, rfl⟩⟩ | ⟨hx, v, rfl⟩
  · rw [hx] at hwaiting
    exact keeps_of_settling hl (.inl ((map_index_give e ⟨fs, l.roots⟩).trans hmap)) hpos
      (counts_give hcounts e) (settling_give hwaiting)
  · rw [hx] at hwaiting
    exact keeps_of_settling hl (.inl hmap) hpos hcounts (settling_of_waiting hwaiting)
  · rw [hx] at hwaiting
    refine keeps_of_settling hl (.inr ?_) hpos ?_ hwaiting
    · exact congrArg ((l.cursor - 1) :: ·) hmap
    · exact List.forall_mem_cons.mpr ⟨rfl, hcounts⟩
  · rw [hx] at hwaiting
    refine keeps_of_settling hl (.inr ?_) hpos ?_ ⟨rfl, hwaiting⟩
    · exact congrArg ((l.cursor - 1) :: ·) hmap
    · exact List.forall_mem_cons.mpr ⟨trivial, hcounts⟩

include hle in
theorem keeps_of_turn (h : Turn table p l m) : Keeps p m := by
  cases h with
  | close hf hm => exact keeps_of_close hle hl hf hm
  | visit hr ha hb => exact keeps_of_visit hle hl hr ha hb

end

theorem keeps_of_reaches {table : Table} {p : Program} {l : Look} (h : Reaches table p l) :
    Keeps p l := by
  induction h with
  | start => exact keeps_start p
  | turn hl hturn ih => exact keeps_of_turn (cursor_le_of_reaches hl) ih hturn

/-! ## Frames at every look -/

/-- What holds of the open frames, which are listed from the innermost on. -/
structure Steady (table : Table) (p : Program) (l : Look) : Prop where
  indices : (l.frames.map Frame.index).Pairwise (· < ·)
  cursor : ∀ f ∈ l.frames, l.cursor ≤ f.index
  /-- A call counts the operands among its children, and below another frame it wants more. -/
  calls : ∀ above i n v d counted es below,
    l.frames = above ++ .call i n v d counted es :: below →
      counted = (es.countP fun e => !e.isBlock) ∧ (above ≠ [] → counted < d.consumes)
  /-- The depth of a block counts the brace of a block directly above it, also of one that was just
  closed there. -/
  blocks : ∀ above i v depth es below, l.frames = above ++ .block i v depth es :: below →
    (depth = 1 ∨ depth = 2) ∧
      (depth = 2 ↔ (∃ f, above.getLast? = some f ∧ f.isBlock = true) ∨
        above = [] ∧ l.AfterBlock p)
  /-- The depth of a block comes to zero only on the brace that ends this block. -/
  ends : ∀ i v depth es below x, l.frames = .block i v depth es :: below →
    (l.ahead p).head? = some x → Frame.nextDepth depth x = 0 →
      x.isOpen = true ∧ ∃ m, Turn table p l m ∧ m.closed = some (.block i v depth es)

section
variable {p : Program} {l : Look}

theorem waiting_append : ∀ {above : List Frame} {f : Frame} {below : List Frame} {b : Bool},
    Waiting b (above ++ f :: below) →
      Waiting ((above.getLast?.map Frame.isBlock).getD b) (f :: below)
  | [], f, below, b, h => h
  | g :: above, f, below, b, h => by
    have htail := waiting_append (waiting_tail h)
    rw [List.getLast?_cons]
    cases hlast : above.getLast? with
    | none => simpa [hlast] using htail
    | some k => simpa [hlast] using htail

theorem Keeps.below (h : Keeps p l) {above : List Frame} {f : Frame} {below : List Frame}
    (hf : l.frames = above ++ f :: below) {g : Frame} (hg : above.getLast? = some g) :
    Waiting g.isBlock (f :: below) := by
  cases above with
  | nil => cases hg
  | cons a above =>
    have hwaiting := waiting_append (h.tail hf)
    rw [List.getLast?_cons] at hg
    cases hg
    cases hlast : above.getLast? with
    | none => simpa [hlast] using hwaiting
    | some k => simpa [hlast] using hwaiting

theorem Keeps.any_closed_iff (h : Keeps p l) :
    l.closed.any Frame.isBlock = true ↔ l.AfterBlock p := by
  constructor
  · exact fun hb => (h.waiting hb).1
  · rintro ⟨f, -, -, hf, hblock, -⟩
    rw [hf, Option.any_some]
    exact hblock

theorem two_iff {depth : Nat} {b : Bool} {P : Prop} (h : depth = if b then 2 else 1)
    (hP : b = true ↔ P) : (depth = 1 ∨ depth = 2) ∧ (depth = 2 ↔ P) := by
  rw [← hP, h]
  cases b <;> simp

theorem steady_of_keeps (table : Table) (hle : l.cursor ≤ p.length) (h : Keeps p l) :
    Steady table p l := by
  refine ⟨h.indices, fun f hf => h.cursor _ (List.mem_map_of_mem hf), ?_, ?_, ?_⟩
  · intro above i n v d counted es below hf
    have hmem : .call i n v d counted es ∈ l.frames := by
      rw [hf]
      exact List.mem_append_right _ (List.mem_cons_self ..)
    have hcounts : (Frame.call i n v d counted es).CountsOperands := h.counts _ hmem
    refine ⟨hcounts, fun hne => ?_⟩
    exact (h.below hf (List.getLast?_eq_some_getLast hne)).1
  · -- what lies above a block is nothing, or else the frame that it waits for
    intro above i v depth es below hf
    cases hlast : above.getLast? with
    | none =>
      obtain rfl := List.getLast?_eq_none_iff.mp hlast
      refine two_iff (depth_of_head h hf) (h.any_closed_iff.trans ⟨fun ha => .inr ⟨rfl, ha⟩, ?_⟩)
      rintro (⟨f, hlast, -⟩ | ⟨-, ha⟩)
      · cases hlast
      · exact ha
    | some g =>
      refine two_iff (h.below hf hlast).1 ⟨fun hg => .inl ⟨g, rfl, hg⟩, ?_⟩
      rintro (⟨f, hlast, hg⟩ | ⟨rfl, -⟩)
      · cases hlast
        exact hg
      · cases hlast
  · intro i v depth es below x hf hx hd
    obtain ⟨rest, ha⟩ : ∃ rest, l.ahead p = x :: rest := by
      cases ha : l.ahead p with
      | nil => rw [ha] at hx; cases hx
      | cons y rest => rw [ha] at hx; cases hx; exact ⟨rest, rfl⟩
    have hm : (Frame.block i v depth es).move (l.ahead p) = .ok (.close (.ofChildren v es)) := by
      simp only [ha, Frame.move, if_pos hd]
    exact ⟨(isOpen_of_ends hle h hf ha hd).1, _, .close hf hm, rfl⟩

end

/-- **Open frames.** The scan goes from look to look up to its outcome, and whatever look it is at,
the rest of its run goes on from there. At every look the indices of the open frames ascend from the
innermost on, none in front of the cursor; calls have counted their operands, and a call below
another frame wants more of them; and blocks have the depth one or two, which is two just for the
brace of a block directly above. -/
theorem steady_of_reaches (table : Table) (p : Program) :
    (∃ l, Reaches table p l ∧ Ends table p l (reconstruct table p).outcome) ∧
      ∀ l, Reaches table p l → l.run table p = reconstruct table p ∧ Steady table p l := by
  refine ⟨exists_ends_outcome table p, fun l hl => ⟨run_of_reaches hl, ?_⟩⟩
  exact steady_of_keeps table (cursor_le_of_reaches hl) (keeps_of_reaches hl)

/-- A block in a block, at the look behind the inner one: its brace counts for the outer one until
that one looks at it too. -/
theorem steady_of_reaches_of_nested :
    let p : Program := [.instruction (.invoke blockOpen .null),
      .instruction (.invoke blockOpen .null), .instruction (.pushNumber (.int 1) .null),
      .instruction (.invoke blockClose .null), .instruction (.invoke blockClose .null)]
    let one : Expr := .literal .number (.number (.int 1)) .null
    let l : Look := ⟨⟨[.block 4 .null 2 [.ofChildren .null [one]]], []⟩, 2,
      some (.block 3 .null 1 [one])⟩
    Reaches .builtin p l ∧ l.run .builtin p = reconstruct .builtin p ∧ Steady .builtin p l ∧
      l.AfterBlock p := by
  intro p one l
  have hl : Reaches .builtin p l := by
    have hstart : Reaches .builtin p (start p) := .start
    have houter := hstart.turn (.visit .none rfl rfl)
    have hinner := houter.turn (.visit (.wait rfl) rfl rfl)
    have hone := hinner.turn (.visit (.wait rfl) rfl rfl)
    have hclosed := hone.turn (.close rfl rfl)
    exact hclosed
  obtain ⟨hrun, hsteady⟩ := (steady_of_reaches .builtin p).2 l hl
  refine ⟨hl, hrun, hsteady, ?_⟩
  rcases (hsteady.blocks [] _ _ _ _ _ rfl).2.mp rfl with ⟨f, hf, -⟩ | ⟨-, hafter⟩
  · cases hf
  · exact hafter

end Look
end StackForest
