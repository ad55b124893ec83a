import StackForest.Proofs.Equality.Dictionary
import StackForest.Proofs.Simulation

/-!
# Equal programs, equal forests

Equality is coarser than being the same: an integer is equal to the binary64 number of its value,
and the fields of a label have no order. A scan cannot tell equal programs apart. The other way,
the nodes of equal forests in post-order are equal (`reconstruct_equal`).
-/

namespace StackForest

open ShiftReduce

/-! ## Equal instructions -/

namespace Instruction

inductive Alike : Instruction → Instruction → Prop
  | pushNumber {m n k l} : (Value.number m).equal (.number n) = true → k.equal l = true →
    Alike (.pushNumber m k) (.pushNumber n l)
  | pushText {s k l} : k.equal l = true → Alike (.pushText s k) (.pushText s l)
  | invoke {name k l} : k.equal l = true → Alike (.invoke name k) (.invoke name l)

theorem alike_iff {i j : Instruction} : i.equal j = true ↔ Alike i j := by
  constructor
  · intro h
    simp only [Instruction.equal, Bool.and_eq_true] at h
    obtain ⟨⟨hkind, hpayload⟩, hlabel⟩ := h
    cases i <;> cases j
    case pushNumber.pushNumber => exact .pushNumber hpayload hlabel
    case pushText.pushText =>
      rw [payload, payload, Value.equal_text, beq_iff_eq] at hpayload
      rw [hpayload]
      exact .pushText hlabel
    case invoke.invoke =>
      rw [payload, payload, Value.equal_text, beq_iff_eq] at hpayload
      rw [hpayload]
      exact .invoke hlabel
    all_goals simp [kindName] at hkind
  · intro h
    cases h with
    | pushNumber hn hl => simp [Instruction.equal, kindName, payload, label, hn, hl]
    | pushText hl => simp [Instruction.equal, kindName, payload, label, hl, Value.equal_text]
    | invoke hl => simp [Instruction.equal, kindName, payload, label, hl, Value.equal_text]

theorem isInvoke_of_equal {i j : Instruction} (h : i.equal j = true) (name : String) :
    i.isInvoke name = j.isInvoke name := by
  cases alike_iff.mp h <;> rfl

end Instruction

theorem nextDepth_of_equal {i j : Instruction} (h : i.equal j = true) (depth : Nat) :
    Frame.nextDepth depth (.instruction i) = Frame.nextDepth depth (.instruction j) := by
  simp only [Frame.nextDepth, Instruction.isInvoke_of_equal h]

/-! ## Scans of equal programs -/

theorem Expr.isBlock_of_equal {e f : Expr} (h : e.equal f = true) : e.isBlock = f.isBlock := by
  cases (equal_iff.mp h).kind <;> rfl

abbrev Expr.AllEqual (es fs : List Expr) : Prop :=
  List.Forall₂ (fun e f => e.equal f = true) es fs

theorem Expr.equal_ofChildren {l m : Value} {es fs : List Expr} (hl : l.equal m = true)
    (h : AllEqual es fs) : (ofChildren l es).equal (ofChildren m fs) = true := by
  obtain ⟨hconsumes, hproduces⟩ := totals_of_equal h
  simp [ofChildren, equal, hconsumes, hproduces, hl, equalAll_iff.mpr h]

open StackForest.Expr (AllEqual)

inductive Entry.Alike : Entry → Entry → Prop
  | instruction {i j : Instruction} : i.equal j = true →
    Alike (.instruction i) (.instruction j)

theorem begun_of_equal {i j : Instruction} (h : i.equal j = true) (table : Table) (index : Nat) :
    Lift (Begun.Related (fun l m => l.equal m = true) fun e f => e.equal f = true)
      (Begun.ofEntry table index (.instruction i))
      (Begun.ofEntry table index (.instruction j)) := by
  cases Instruction.alike_iff.mp h with
  | pushNumber hn hl => exact .ok (.leaf (by simp [Expr.equal, hn, hl]))
  | pushText hl => exact .ok (.leaf (by simp [Expr.equal, hl, Value.equal_text]))
  | @invoke name k l hl =>
    simp only [Begun.ofEntry]
    split
    · exact .ok (.frame (.block hl .nil))
    split
    · exact .ok .nothing
    cases table.lookup? name with
    | none => exact .error _
    | some effect => exact .ok (.frame (.call rfl rfl hl .nil))

theorem simulation_of_equal (table : Table) : Simulation table table Entry.Alike
    (fun l m => l.equal m = true) (fun e f => e.equal f = true) where
  isBlock := Expr.isBlock_of_equal
  call := fun hl hes => by simp [Expr.equal, hl, Expr.equalAll_iff.mpr hes]
  block := Expr.equal_ofChildren
  nextDepth := by
    rintro _ _ ⟨h⟩ depth
    exact nextDepth_of_equal h depth
  begun := by
    rintro _ _ ⟨h⟩ index
    exact begun_of_equal h table index

theorem reconstruct_of_equal {is js : List Instruction}
    (h : List.Forall₂ (fun i j => i.equal j = true) is js) (table : Table) :
    Lift AllEqual (reconstruct table (is.map .instruction)).outcome
      (reconstruct table (js.map .instruction)).outcome := by
  refine ((simulation_of_equal table).reconstruct ?_).outcome
  rw [List.forall₂_map_left_iff, List.forall₂_map_right_iff]
  exact h.imp fun _ _ hij => .instruction hij

/-! ## Comparisons that have room -/

theorem Instruction.equal?_iff {room : Room} {i j : Instruction} :
    i.equal? room j = .ok true ↔ i.equal j = true ∧
      Room.fits room.comparing (i.label.overlap j.label + 1) = true := by
  unfold equal?
  split
  next h =>
    constructor
    · intro heq
      cases heq
    · rintro ⟨-, hfits⟩
      exact absurd hfits h.2.2
  next h =>
    rw [Except.ok.injEq]
    refine ⟨fun heq => ⟨heq, ?_⟩, fun heq => heq.1⟩
    by_contra hfits
    simp only [equal, Bool.and_eq_true] at heq
    exact h ⟨heq.1.1, heq.1.2, hfits⟩

namespace Expr

/-- Whether there is room to make the dictionaries of two trees and to compare them. -/
def isComparable (room : Room) (e f : Expr) : Bool :=
  Room.fits room.calls e.calls && Room.fits room.calls f.calls &&
    Room.fits room.comparing (e.toValue.overlap f.toValue)

section
variable {room : Room} {e f : Expr}

theorem equal?_of_isComparable (hkind : e.kindName = f.kindName)
    (h : e.isComparable room f = true) :
    e.equal? room f = .ok (e.toValue.equal f.toValue) := by
  simp only [isComparable, Bool.and_eq_true] at h
  obtain ⟨⟨he, hf⟩, hoverlap⟩ := h
  rw [equal?, if_pos hkind, toValue?, toValue?, if_pos he, if_pos hf]
  exact if_pos hoverlap

theorem exists_equal?_error (hkind : e.kindName = f.kindName)
    (h : e.isComparable room f = false) : ∃ o, e.equal? room f = .error o := by
  rw [equal?, if_pos hkind, toValue?, toValue?]
  cases he : Room.fits room.calls e.calls with
  | false => exact ⟨_, rfl⟩
  | true =>
    cases hf : Room.fits room.calls f.calls with
    | false => exact ⟨_, rfl⟩
    | true =>
      simp only [isComparable, he, hf, Bool.and_self, Bool.true_and] at h
      exact ⟨_, if_neg (by simp [h])⟩

theorem equal?_iff :
    e.equal? room f = .ok true ↔ e.equal f = true ∧ e.isComparable room f = true := by
  constructor
  · intro h
    have hkind : e.kindName = f.kindName := by
      by_contra hkind
      rw [equal?, if_neg hkind] at h
      cases h
    cases hroom : e.isComparable room f with
    | false =>
      obtain ⟨o, ho⟩ := exists_equal?_error hkind hroom
      rw [ho] at h
      cases h
    | true =>
      rw [equal?_of_isComparable hkind hroom] at h
      exact ⟨equal_iff_toValue.mpr (Except.ok.inj h), rfl⟩
  · rintro ⟨h, hroom⟩
    rw [equal?_of_isComparable (kindName_of_equal h) hroom, equal_iff_toValue.mp h]

end

/-! ## Equal forests -/

structure EqualWithin (room : Room) (e f : Expr) : Prop where
  equal : e.equal f = true
  fits : Room.fits room.comparing (e.toValue.overlap f.toValue) = true

section
variable {room : Room}

theorem EqualWithin.children {e f : Expr} (h : EqualWithin room e f) :
    List.Forall₂ (EqualWithin room) e.children f.children :=
  (overlap_children_le h.equal).imp fun _ _ hc => ⟨hc.1, Room.fits_of_le hc.2 h.fits⟩

theorem postorderAll_equal {es fs : List Expr} (h : List.Forall₂ (EqualWithin room) es fs)
    (hes : ∀ e ∈ es, ∀ f, EqualWithin room e f →
      List.Forall₂ (EqualWithin room) (postorder e) (postorder f)) :
    List.Forall₂ (EqualWithin room) (postorderAll es) (postorderAll fs) := by
  induction h with
  | nil => exact .nil
  | cons he _ ih =>
    rw [List.forall_mem_cons] at hes
    exact List.rel_append (hes.1 _ he) (ih hes.2)

theorem postorder_equal (e f : Expr) (h : EqualWithin room e f) :
    List.Forall₂ (EqualWithin room) (postorder e) (postorder f) := by
  induction e using induction_on generalizing f with
  | h e ih =>
    rw [postorder_eq, postorder_eq]
    exact List.rel_append (postorderAll_equal h.children ih) (.cons h .nil)

end

end Expr

open StackForest.Expr

theorem equal_of_origin? {e f : Expr} (h : e.equal f = true) {i j : Instruction}
    (hi : origin? e = some (.instruction i)) (hj : origin? f = some (.instruction j)) :
    i.equal j = true := by
  have hsimilar := equal_iff.mp h
  have hvalue := hsimilar.value
  have hlabel := hsimilar.label
  refine Instruction.alike_iff.mpr ?_
  cases hsimilar.kind with
  | @literal k v w l m =>
    cases k with
    | number =>
      cases v <;> cases hi
      cases w <;> cases hj
      exact .pushNumber hvalue hlabel
    | text =>
      cases v <;> cases hi
      cases w <;> cases hj
      rw [value, value, Value.equal_text, beq_iff_eq] at hvalue
      rw [hvalue]
      exact .pushText hlabel
  | call =>
    cases hi
    cases hj
    rw [value, value, Value.equal_text, beq_iff_eq] at hvalue
    rw [hvalue]
    exact .invoke hlabel
  | block =>
    cases hi
    cases hj
    exact .invoke hlabel
  | bare => cases hi

theorem label_of_origin? {e : Expr} {i : Instruction} (h : origin? e = some (.instruction i)) :
    i.label = e.label := by
  unfold origin? at h
  split at h <;> cases h <;> rfl

theorem equal?_of_origin? {room : Room} {e f : Expr} (h : EqualWithin room e f)
    {i j : Instruction} (hi : origin? e = some (.instruction i))
    (hj : origin? f = some (.instruction j)) : i.equal? room j = .ok true := by
  refine Instruction.equal?_iff.mpr ⟨equal_of_origin? h.equal hi hj, ?_⟩
  rw [label_of_origin? hi, label_of_origin? hj]
  exact Room.fits_of_le (overlap_label_lt h.equal) h.fits

theorem origins_of_reconstruct {table : Table} {is : List Instruction} {forest : List Expr}
    (h : (reconstruct table (is.map .instruction)).outcome = .ok forest) :
    (postorderAll forest).map origin? =
      (is.filter (!·.isInvoke blockOpen)).map fun i => some (.instruction i) := by
  obtain ⟨s, hs, rfl⟩ := exists_run_of_reconstruct h
  rw [postorder_of_run hs, List.filter_map, List.map_map]
  rfl

theorem equal?_of_forests {room : Room} {table : Table} {is js : List Instruction}
    {forest forest' : List Expr}
    (hi : (reconstruct table (is.map .instruction)).outcome = .ok forest)
    (hj : (reconstruct table (js.map .instruction)).outcome = .ok forest')
    (h : List.Forall₂ (EqualWithin room) forest forest') :
    List.Forall₂ (fun i j => i.equal? room j = .ok true) (is.filter (!·.isInvoke blockOpen))
      (js.filter (!·.isInvoke blockOpen)) := by
  have hnodes := postorderAll_equal h fun e _ f => postorder_equal e f
  have horigins : List.Forall₂ (fun x y => ∀ i j, x = some (.instruction i) →
      y = some (.instruction j) → i.equal? room j = .ok true)
      ((postorderAll forest).map origin?) ((postorderAll forest').map origin?) := by
    rw [List.forall₂_map_left_iff, List.forall₂_map_right_iff]
    exact hnodes.imp fun e f he i j => equal?_of_origin? he
  rw [origins_of_reconstruct hi, origins_of_reconstruct hj, List.forall₂_map_left_iff,
    List.forall₂_map_right_iff] at horigins
  exact horigins.imp fun i j hij => hij i j rfl rfl

end StackForest
