import StackForest.Proofs.Scan

/-!
# The order of visits

A frame can miss something only when no entry is left, so a missing operand or an unterminated block
shows only after everything has been visited, and an unknown entry wins over all of them.
-/

namespace StackForest

inductive Refusal (index : Nat) : Entry → TreeFault → Prop
  | opcode {name l} : Refusal index (.instruction (.invoke name l)) (.unknownOpcode name)
  | foreign {v} : Refusal index (.foreign v) (.foreign index v)

/-- Whether a fault comes from frames that are still open at the start of the program. -/
def TreeFault.isShortage : TreeFault → Bool
  | unterminatedBlock _ | missingOperand _ _ => true
  | unknownOpcode _ | foreign _ _ => false

/-! ## One entry -/

theorem begun_of_known {table : Table} {e : Entry} (h : e.isKnown table = true) (index : Nat) :
    ∃ b, Begun.ofEntry table index e = .ok b := by
  cases e with
  | foreign v => cases h
  | instruction i =>
    cases i with
    | pushNumber n l => exact ⟨_, rfl⟩
    | pushText t l => exact ⟨_, rfl⟩
    | invoke name l =>
      simp only [Begun.ofEntry]
      by_cases hc : name = blockClose
      · exact ⟨_, if_pos hc⟩
      by_cases ho : name = blockOpen
      · exact ⟨_, by rw [if_neg hc, if_pos ho]⟩
      obtain ⟨effect, hl⟩ : ∃ effect, table.lookup? name = some effect := by
        simpa [Entry.isKnown, ho, hc, Option.isSome_iff_exists] using h
      exact ⟨_, by rw [if_neg hc, if_neg ho, hl]⟩

theorem refusal_of_unknown {table : Table} {e : Entry} (h : e.isKnown table = false)
    (index : Nat) : ∃ fault, Begun.ofEntry table index e = .error fault ∧
      Refusal index e fault := by
  cases e with
  | foreign v => exact ⟨_, rfl, .foreign⟩
  | instruction i =>
    cases i with
    | pushNumber n l => cases h
    | pushText t l => cases h
    | invoke name l =>
      simp only [Entry.isKnown, Bool.or_eq_false_iff, beq_eq_false_iff_ne, ne_eq,
        Option.isSome_eq_false_iff, Option.isNone_iff_eq_none] at h
      obtain ⟨⟨ho, hc⟩, hl⟩ := h
      refine ⟨.unknownOpcode name, ?_, .opcode⟩
      simp [Begun.ofEntry, ho, hc, hl]

theorem move_cons (e : Entry) (rest : List Entry) (f : Frame) :
    ∃ m, f.move (e :: rest) = .ok m := by
  cases f with
  | call i n l d counted es =>
    by_cases hc : d.consumes ≤ counted
    · exact ⟨_, if_pos hc⟩
    · exact ⟨_, by rw [Frame.move, if_neg hc]; rfl⟩
  | block i l depth es =>
    by_cases hd : Frame.nextDepth depth e = 0
    · exact ⟨_, if_pos hd⟩
    · exact ⟨_, if_neg hd⟩

theorem isShortage_of_move {rest : List Entry} {f : Frame} {fault : TreeFault}
    (h : f.move rest = .error fault) : fault.isShortage = true := by
  cases rest with
  | cons e rest =>
    obtain ⟨m, hm⟩ := move_cons e rest f
    rw [hm] at h
    cases h
  | nil =>
    cases f with
    | block i l depth es => cases h; rfl
    | call i n l d counted es =>
      by_cases hc : d.consumes ≤ counted
      · simp [Frame.move, hc] at h
      · simp only [Frame.move, hc, if_false, List.isEmpty_nil, if_true] at h
        cases h
        rfl

/-! ## Settling -/

theorem settle_cons (e : Entry) (rest : List Entry) : ∀ (done : Option Expr) (fs : List Frame)
    (roots : List Expr), ∃ s, settle (e :: rest) done fs roots = .ok s
  | done, [], roots => ⟨_, rfl⟩
  | done, f :: fs, roots => by
    obtain ⟨m, hm⟩ := move_cons e rest (f.receive done)
    rw [settle, hm]
    cases m with
    | wait f => exact ⟨_, rfl⟩
    | close b => exact settle_cons e rest (some b) fs roots

theorem isShortage_of_settle {rest : List Entry} {fault : TreeFault} :
    ∀ {done : Option Expr} {fs : List Frame} {roots : List Expr},
      settle rest done fs roots = .error fault → fault.isShortage = true
  | done, [], roots, h => by cases h
  | done, f :: fs, roots, h => by
    rw [settle] at h
    cases hm : (f.receive done).move rest with
    | error other =>
      rw [hm] at h
      cases h
      exact isShortage_of_move hm
    | ok m =>
      rw [hm] at h
      cases m with
      | wait f => cases h
      | close b => exact isShortage_of_settle h

section
variable {table : Table} {e : Entry}

theorem visit_known (h : e.isKnown table = true) (index : Nat) {rest : List Entry}
    (hrest : rest ≠ []) (s : Scan) : ∃ r, visit table index e rest s = .ok r := by
  obtain ⟨x, rest, rfl⟩ := List.exists_cons_of_ne_nil hrest
  obtain ⟨b, hb⟩ := begun_of_known h index
  rw [visit_eq hb]
  exact settle_cons x rest _ _ _

theorem isShortage_of_visit (h : e.isKnown table = true) {index : Nat} {rest : List Entry}
    {s : Scan} {fault : TreeFault} (hv : visit table index e rest s = .error fault) :
    fault.isShortage = true := by
  obtain ⟨b, hb⟩ := begun_of_known h index
  rw [visit_eq hb] at hv
  exact isShortage_of_settle hv

end

/-! ## Scanning -/

section
variable {table : Table}

theorem scan_known_append {rest : List Entry} (hrest : rest ≠ []) : ∀ {es : List Entry},
    (∀ e ∈ es, e.isKnown table = true) → ∀ (s : Scan) (visited : List Nat), ∃ r,
      scan table (es.length + rest.length) (es ++ rest) s visited =
        scan table rest.length rest r (List.range' rest.length es.length ++ visited)
  | [], _, s, visited => ⟨s, by simp⟩
  | e :: es, h, s, visited => by
    rw [List.forall_mem_cons] at h
    have hne : es ++ rest ≠ [] := by simp [hrest]
    obtain ⟨r, hr⟩ := visit_known h.1 (es.length + rest.length) hne s
    obtain ⟨r', hr'⟩ := scan_known_append hrest h.2 r ((es.length + rest.length) :: visited)
    refine ⟨r', ?_⟩
    have hn : (e :: es).length + rest.length - 1 = es.length + rest.length := by
      simp only [List.length_cons]; omega
    rw [List.cons_append, scan, hn, hr]
    simp only
    rw [hr', List.length_cons, List.range'_1_concat, List.append_assoc, List.singleton_append,
      Nat.add_comm es.length]

theorem reconstruct_unknown {q r : Program} {e : Entry} (he : e.isKnown table = false)
    (hr : ∀ x ∈ r, x.isKnown table = true) : ∃ fault, Refusal q.length e fault ∧
      reconstruct table (q ++ e :: r) =
        ⟨(List.range' q.length (r.length + 1)).reverse, .error fault⟩ := by
  obtain ⟨fault, hb, hf⟩ := refusal_of_unknown he q.length
  have hk : ∀ x ∈ r.reverse, x.isKnown table = true := by simpa using hr
  obtain ⟨s, hs⟩ := scan_known_append (List.cons_ne_nil e q.reverse) hk ⟨[], []⟩ []
  refine ⟨fault, hf, ?_⟩
  have hn : (q ++ e :: r).length = r.reverse.length + (e :: q.reverse).length := by
    simp; omega
  have hp : (q ++ e :: r).reverse = r.reverse ++ e :: q.reverse := by simp
  rw [reconstruct, hn, hp, hs, scan]
  simp only [List.length_cons, List.length_reverse, Nat.add_sub_cancel, visit, hb,
    List.append_nil]
  rfl

theorem reconstruct_known {p : Program} (h : ∀ e ∈ p, e.isKnown table = true) :
    (reconstruct table p).visits = (List.range p.length).reverse ∧
      ∀ fault, (reconstruct table p).outcome = .error fault → fault.isShortage = true := by
  cases p with
  | nil => exact ⟨rfl, fun fault hf => by cases hf⟩
  | cons e p =>
    rw [List.forall_mem_cons] at h
    have hk : ∀ x ∈ p.reverse, x.isKnown table = true := by simpa using h.2
    obtain ⟨s, hs⟩ := scan_known_append (List.cons_ne_nil e []) hk ⟨[], []⟩ []
    have hr : reconstruct table (e :: p) =
        scan table 1 [e] s (List.range' 1 p.length) := by
      simpa [reconstruct] using hs
    rw [hr, scan]
    have hv : (0 :: List.range' 1 p.length).reverse = (List.range (e :: p).length).reverse := by
      rw [List.range_eq_range', List.length_cons, List.range'_succ]
    cases hvis : visit table 0 e [] s with
    | error fault =>
      refine ⟨hv, fun other ho => ?_⟩
      cases ho
      exact isShortage_of_visit h.1 hvis
    | ok r => exact ⟨hv, fun fault hf => by cases hf⟩

end

theorem exists_last_unknown {table : Table} {p : Program}
    (h : ∃ e ∈ p, e.isKnown table = false) : ∃ q e r, p = q ++ e :: r ∧
      e.isKnown table = false ∧ ∀ x ∈ r, x.isKnown table = true := by
  induction p using List.reverseRecOn with
  | nil => simp at h
  | append_singleton p e ih =>
    cases he : e.isKnown table with
    | false => exact ⟨p, e, [], rfl, he, by simp⟩
    | true =>
      obtain ⟨q, x, r, rfl, hx, hr⟩ := ih (by simpa [he] using h)
      exact ⟨q, x, r ++ [e], by simp, hx, by simpa [or_imp, forall_and, he] using hr⟩

theorem reconstruct_of_unknown {table : Table} {p : Program}
    (h : ∃ e ∈ p, e.isKnown table = false) : ∃ q e r fault, p = q ++ e :: r ∧
      e.isKnown table = false ∧ (∀ x ∈ r, x.isKnown table = true) ∧
      Refusal q.length e fault ∧ (reconstruct table p).outcome = .error fault ∧
      (reconstruct table p).visits = (List.range' q.length (p.length - q.length)).reverse := by
  obtain ⟨q, e, r, rfl, he, hr⟩ := exists_last_unknown h
  obtain ⟨fault, hf, hrun⟩ := reconstruct_unknown he hr (q := q)
  have hn : (q ++ e :: r).length - q.length = r.length + 1 := by simp
  exact ⟨q, e, r, fault, rfl, he, hr, hf, by rw [hrun], by rw [hrun, hn]⟩

theorem known_of_isShortage {table : Table} {p : Program} {fault : TreeFault}
    (h : (reconstruct table p).outcome = .error fault) (hf : fault.isShortage = true) :
    ∀ e ∈ p, e.isKnown table = true := by
  by_contra hk
  obtain ⟨q, e, r, other, -, -, -, hr, ho, -⟩ := reconstruct_of_unknown (by simpa using hk)
  rw [h] at ho
  cases ho
  cases hr <;> cases hf

/-- **Which fault wins.** Indices are visited in descending order, each once. If an entry is
unknown, the scan ends at the last such entry, with the fault that names it. If none is, all
indices are visited and only a missing operand or an unterminated block can be the fault. -/
theorem visits_reconstruct (table : Table) (p : Program) :
    (∃ j ≤ p.length, (reconstruct table p).visits = (List.range' j (p.length - j)).reverse) ∧
      ((∃ e ∈ p, e.isKnown table = false) → ∃ q e r fault, p = q ++ e :: r ∧
        e.isKnown table = false ∧ (∀ x ∈ r, x.isKnown table = true) ∧
        Refusal q.length e fault ∧ (reconstruct table p).outcome = .error fault ∧
        (reconstruct table p).visits = (List.range' q.length (p.length - q.length)).reverse) ∧
      ((∀ e ∈ p, e.isKnown table = true) →
        (reconstruct table p).visits = (List.range p.length).reverse ∧
        ∀ fault, (reconstruct table p).outcome = .error fault → fault.isShortage = true) := by
  refine ⟨?_, reconstruct_of_unknown, reconstruct_known⟩
  by_cases h : ∃ e ∈ p, e.isKnown table = false
  · obtain ⟨q, e, r, fault, hp, -, -, -, -, hv⟩ := reconstruct_of_unknown h
    exact ⟨q.length, by simp [hp], hv⟩
  · have hk : ∀ e ∈ p, e.isKnown table = true := by simpa using h
    refine ⟨0, Nat.zero_le _, ?_⟩
    rw [(reconstruct_known hk).1, List.range_eq_range', Nat.sub_zero]

theorem visits_reconstruct_of_unknownName :
    let p : Program := [.instruction (.invoke blockClose .null), .foreign (.text "x"),
      .instruction (.invoke "rot" .null), .instruction (.pushNumber (.int 5) .null),
      .instruction (.invoke "+" .null), .instruction (.invoke blockOpen .null)]
    let s : Program := [.instruction (.pushNumber (.int 5) .null), .instruction (.invoke "+" .null)]
    ((∃ e ∈ p, e.isKnown .builtin = false) ∧ ∃ q e r fault, p = q ++ e :: r ∧
      Refusal q.length e fault ∧ (reconstruct .builtin p).outcome = .error fault ∧
      (reconstruct .builtin p).visits = (List.range' q.length (p.length - q.length)).reverse) ∧
    (∀ e ∈ s, e.isKnown .builtin = true) ∧
      (reconstruct .builtin s).visits = (List.range s.length).reverse ∧
      (reconstruct .builtin s).outcome = .error (.missingOperand "+" 1) ∧
      (TreeFault.missingOperand "+" 1).isShortage = true := by
  intro p s
  have h : ∃ e ∈ p, e.isKnown .builtin = false := ⟨p[1], by simp [p], rfl⟩
  obtain ⟨q, e, r, fault, hp, -, -, hf, ho, hv⟩ := (visits_reconstruct .builtin p).2.1 h
  have hs : ∀ e ∈ s, e.isKnown .builtin = true := by
    simp only [s, List.forall_mem_cons, List.not_mem_nil, false_imp_iff, implies_true, and_true]
    exact ⟨rfl, rfl⟩
  obtain ⟨hvisits, hshortage⟩ := (visits_reconstruct .builtin s).2.2 hs
  have hout : (reconstruct .builtin s).outcome = .error (.missingOperand "+" 1) := rfl
  exact ⟨⟨h, q, e, r, fault, hp, hf, ho, hv⟩, hs, hvisits, hout, hshortage _ hout⟩

end StackForest
