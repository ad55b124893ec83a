import StackForest.Json.Reader
import StackForest.Proofs.Except
import StackForest.Proofs.Room

/-!
# The grammar of JSON

The machine accepts a text if and only if its lexemes stand for a value and its brackets are not too
deep, and then reads this value (`read_eq_ok_iff`).
-/

namespace StackForest.Json

/-- What lexemes in a row can stand for. -/
inductive Phrase where
  | value (v : Value)
  /-- The bracket of a list and some items, each with a comma behind it. -/
  | begun (vs : List Value)
  /-- The bracket of a list and at least one item, with commas between the items. -/
  | items (vs : List Value)
  /-- The brace of a dictionary and some fields, each with a comma behind it. -/
  | names (pairs : List (String × Value))
  /-- The brace of a dictionary and at least one field, with commas between the fields. -/
  | fields (pairs : List (String × Value))
  /-- A whole dictionary, with its fields as they are written. -/
  | object (pairs : List (String × Value))

inductive Spells : List (Lexeme × Nat) → Phrase → Prop
  | scalar (v : Value) (i : Nat) : Spells [(.scalar v, i)] (.value v)
  | emptyList (i j : Nat) : Spells [(.mark '[', i), (.mark ']', j)] (.value (.list []))
  | bracket (i : Nat) : Spells [(.mark '[', i)] (.begun [])
  | item {ls ms vs v} : Spells ls (.begun vs) → Spells ms (.value v) →
    Spells (ls ++ ms) (.items (vs ++ [v]))
  | nextItem {ls vs} (i : Nat) : Spells ls (.items vs) → Spells (ls ++ [(.mark ',', i)]) (.begun vs)
  | list {ls vs} (i : Nat) : Spells ls (.items vs) →
    Spells (ls ++ [(.mark ']', i)]) (.value (.list vs))
  | emptyObject (i j : Nat) : Spells [(.mark '\x7b', i), (.mark '\x7d', j)] (.object [])
  | brace (i : Nat) : Spells [(.mark '\x7b', i)] (.names [])
  | field {ls ms pairs v} (key : String) (i j : Nat) : Spells ls (.names pairs) →
    Spells ms (.value v) →
    Spells (ls ++ (.scalar (.text key), i) :: (.mark ':', j) :: ms) (.fields (pairs ++ [(key, v)]))
  | nextField {ls pairs} (i : Nat) : Spells ls (.fields pairs) →
    Spells (ls ++ [(.mark ',', i)]) (.names pairs)
  | object {ls pairs} (i : Nat) : Spells ls (.fields pairs) →
    Spells (ls ++ [(.mark '\x7d', i)]) (.object pairs)
  | dict {ls pairs} : Spells ls (.object pairs) → Spells ls (.value (.dict (Fields.ofList pairs)))

theorem ofList_append (pairs : List (String × Value)) (key : String) (v : Value) :
    Fields.ofList (pairs ++ [(key, v)]) = Fields.put key v (Fields.ofList pairs) := by
  rw [Fields.ofList, List.foldl_append]
  rfl

/-! ## What the machine has read -/

/-- The lexemes with which some containers have been begun, up to where a value is due. -/
inductive Inside : List (Lexeme × Nat) → List Open → Prop
  | nil : Inside [] []
  | list {ls ms outer vs} : Inside ls outer → Spells ms (.begun vs) →
    Inside (ls ++ ms) (.list vs.reverse :: outer)
  | dict {ls ms outer pairs} (key : String) (i j : Nat) : Inside ls outer →
    Spells ms (.names pairs) →
    Inside (ls ++ (ms ++ [(.scalar (.text key), i), (.mark ':', j)]))
      (.dict (Fields.ofList pairs) key :: outer)

inductive Reached : List (Lexeme × Nat) → Machine → Prop
  | value {ls outer} : Inside ls outer → Reached ls ⟨.value, outer⟩
  | firstItem {ls outer} (i : Nat) : Inside ls outer →
    Reached (ls ++ [(.mark '[', i)]) ⟨.firstItem, outer⟩
  | firstName {ls outer} (i : Nat) : Inside ls outer →
    Reached (ls ++ [(.mark '\x7b', i)]) ⟨.firstName, outer⟩
  | name {ls ms outer pairs} : Inside ls outer → Spells ms (.names pairs) →
    Reached (ls ++ ms) ⟨.name (Fields.ofList pairs), outer⟩
  | colon {ls ms outer pairs} (key : String) (i : Nat) : Inside ls outer →
    Spells ms (.names pairs) →
    Reached (ls ++ (ms ++ [(.scalar (.text key), i)])) ⟨.colon (Fields.ofList pairs) key, outer⟩
  | afterItem {ls ms outer vs} : Inside ls outer → Spells ms (.items vs) →
    Reached (ls ++ ms) ⟨.afterItem vs.reverse, outer⟩
  | afterField {ls ms outer pairs} : Inside ls outer → Spells ms (.fields pairs) →
    Reached (ls ++ ms) ⟨.afterField (Fields.ofList pairs), outer⟩
  | finished {ls v} : Spells ls (.value v) → Reached ls ⟨.finished v, []⟩

section
variable {ls ms : List (Lexeme × Nat)} {outer : List Open} {m m' : Machine}

theorem reached_supply {v : Value} (h : Inside ls outer) (hv : Spells ms (.value v)) :
    Reached (ls ++ ms) (Machine.supply v outer) := by
  cases h with
  | nil => exact .finished hv
  | @list ls _ outer vs h hvs =>
    have hitems := Reached.afterItem h (.item hvs hv)
    rw [List.reverse_append] at hitems
    rw [List.append_assoc]
    exact hitems
  | @dict ls _ outer pairs key i j h hpairs =>
    have hfields := Reached.afterField h (.field key i j hpairs hv)
    rw [ofList_append] at hfields
    rw [List.append_assoc, List.append_assoc]
    exact hfields

theorem reached_takeValue {lexeme : Lexeme} {i : Nat} (h : Inside ls outer)
    (hpaired : lexeme.isUnpaired = false) (htake : Machine.takeValue outer i lexeme = .ok m) :
    Reached (ls ++ [(lexeme, i)]) m := by
  unfold Machine.takeValue at htake
  split at htake
  · next v =>
    cases htake
    exact reached_supply h (.scalar v i)
  · cases hpaired
  · cases htake
  · cases htake
  · cases htake
    exact .firstItem i h
  · cases htake
    exact .firstName i h
  · cases htake

theorem reached_takeName {pairs : List (String × Value)} {lexeme : Lexeme} {i : Nat}
    (h : Inside ls outer) (hpairs : Spells ms (.names pairs)) (hpaired : lexeme.isUnpaired = false)
    (htake : Machine.takeName (Fields.ofList pairs) outer i lexeme = .ok m) :
    Reached (ls ++ (ms ++ [(lexeme, i)])) m := by
  unfold Machine.takeName at htake
  split at htake
  · next key =>
    cases htake
    exact .colon key i h hpairs
  · cases hpaired
  · cases htake
  · cases htake

theorem reached_take {lexeme : Lexeme × Nat} (h : Reached ls m)
    (hpaired : lexeme.1.isUnpaired = false) (htake : m.take lexeme = .ok m') :
    Reached (ls ++ [lexeme]) m' := by
  -- what the machine expects tells which phrase it is in, and the lexeme continues that one
  obtain ⟨expect, outer⟩ := m
  unfold Machine.take at htake
  split at htake
  case h_1 hexpect =>
    cases hexpect
    cases htake
    cases h with
    | firstItem i h =>
      rw [List.append_assoc]
      exact reached_supply h (.emptyList i _)
  case h_2 hexpect =>
    cases hexpect
    cases h with
    | firstItem i h => exact reached_takeValue (.list h (.bracket i)) hpaired htake
  case h_3 hexpect =>
    cases hexpect
    cases h with
    | value h => exact reached_takeValue h hpaired htake
  case h_4 hexpect =>
    cases hexpect
    cases htake
    cases h with
    | firstName i h =>
      rw [List.append_assoc]
      exact reached_supply h (.dict (.emptyObject i _))
  case h_5 hexpect =>
    cases hexpect
    cases h with
    | firstName i h =>
      rw [List.append_assoc]
      exact reached_takeName h (.brace i) hpaired htake
  case h_6 hexpect =>
    cases hexpect
    cases h with
    | name h hpairs =>
      rw [List.append_assoc]
      exact reached_takeName h hpairs hpaired htake
  case h_7 key j hexpect =>
    cases hexpect
    cases htake
    cases h with
    | colon key i h hpairs =>
      rw [List.append_assoc, List.append_assoc]
      exact .value (.dict key i j h hpairs)
  case h_8 hexpect =>
    cases hexpect
    cases htake
    cases h with
    | afterItem h hvs =>
      rw [List.append_assoc, List.reverse_reverse]
      exact reached_supply h (.list _ hvs)
  case h_9 hexpect =>
    cases hexpect
    cases htake
    cases h with
    | afterItem h hvs =>
      rw [List.append_assoc]
      exact .value (.list h (.nextItem _ hvs))
  case h_10 hexpect =>
    cases hexpect
    cases htake
    cases h with
    | afterField h hpairs =>
      rw [List.append_assoc]
      exact reached_supply h (.dict (.object _ hpairs))
  case h_11 hexpect =>
    cases hexpect
    cases htake
    cases h with
    | afterField h hpairs =>
      rw [List.append_assoc]
      exact .name h (.nextField _ hpairs)
  case h_12 => cases htake

theorem reached_foldlM {lexemes : List (Lexeme × Nat)} (h : Reached ls m)
    (hpaired : ∀ l ∈ lexemes, l.1.isUnpaired = false)
    (hfold : lexemes.foldlM Machine.take m = .ok m') : Reached (ls ++ lexemes) m' := by
  induction lexemes generalizing ls m with
  | nil =>
    cases hfold
    rwa [List.append_nil]
  | cons lexeme lexemes ih =>
    rw [List.forall_mem_cons] at hpaired
    rw [List.foldlM_cons] at hfold
    obtain ⟨m'', htake, hfold⟩ := exists_of_bind_eq_ok hfold
    have hreached := ih (reached_take h hpaired.1 htake) hpaired.2 hfold
    rwa [List.append_assoc, List.singleton_append] at hreached

end

theorem spells_of_reached {ls : List (Lexeme × Nat)} {v : Value} {outer : List Open}
    (h : Reached ls ⟨.finished v, outer⟩) : Spells ls (.value v) := by
  cases h with
  | finished h => exact h

/-! ## How deep the brackets go -/

/-- How many containers are open behind a lexeme, if `n` are in front of it. -/
def levelAfter (n : Nat) : Lexeme → Nat
  | .mark '[' | .mark '\x7b' => n + 1
  | .mark ']' | .mark '\x7d' => n - 1
  | _ => n

/-- The most containers that are open at once among some lexemes, if `n` are in front of them. -/
def depth (n : Nat) : List (Lexeme × Nat) → Nat
  | [] => n
  | l :: ls => n.max (depth (levelAfter n l.1) ls)

theorem le_depth (n : Nat) (ls : List (Lexeme × Nat)) : n ≤ depth n ls := by
  cases ls with
  | nil => exact Nat.le_refl n
  | cons l ls => exact Nat.le_max_left _ _

namespace Machine

def level (m : Machine) : Nat :=
  match m.expect with
  | .value | .finished _ => m.outer.length
  | _ => m.outer.length + 1

def hasOpened (m : Machine) : Bool :=
  match m.expect with
  | .firstItem | .firstName => true
  | _ => false

section
variable {m m' : Machine} {limit : Option Nat}

theorem level_supply (v : Value) (outer : List Open) : (supply v outer).level = outer.length := by
  cases outer with
  | nil => rfl
  | cons o outer => cases o <;> rfl

theorem hasOpened_supply (v : Value) (outer : List Open) : (supply v outer).hasOpened = false := by
  cases outer with
  | nil => rfl
  | cons o outer => cases o <;> rfl

/-- What a lexeme does to the level of a machine, whose containers are opened one at a time. -/
structure Moves (n : Nat) (lexeme : Lexeme) (m : Machine) : Prop where
  level : m.level = levelAfter n lexeme
  le : m.hasOpened = false → m.level ≤ n

theorem moves_takeValue {outer : List Open} {offset : Nat} {lexeme : Lexeme}
    (h : takeValue outer offset lexeme = .ok m) : Moves outer.length lexeme m := by
  unfold takeValue at h
  split at h
  · cases h
    exact ⟨level_supply _ _, fun _ => Nat.le_of_eq (level_supply _ _)⟩
  · cases h
    exact ⟨level_supply _ _, fun _ => Nat.le_of_eq (level_supply _ _)⟩
  · cases h
  · cases h
  · cases h
    exact ⟨rfl, fun h => by cases h⟩
  · cases h
    exact ⟨rfl, fun h => by cases h⟩
  · cases h

theorem moves_takeName {fields : List (String × Value)} {outer : List Open} {offset : Nat}
    {lexeme : Lexeme} (h : takeName fields outer offset lexeme = .ok m) :
    Moves (outer.length + 1) lexeme m := by
  unfold takeName at h
  split at h
  · cases h
    exact ⟨rfl, fun _ => Nat.le_refl _⟩
  · cases h
    exact ⟨rfl, fun _ => Nat.le_refl _⟩
  · cases h
  · cases h

theorem moves_take {lexeme : Lexeme × Nat} (h : m.take lexeme = .ok m') :
    Moves m.level lexeme.1 m' := by
  have hclose {v : Value} {outer : List Open} {n : Nat} {l : Lexeme} (hn : n = outer.length + 1)
      (hl : levelAfter n l = n - 1) : Moves n l (supply v outer) := by
    subst hn
    exact ⟨(level_supply v outer).trans hl.symm, fun _ => by rw [level_supply]; omega⟩
  obtain ⟨expect, outer⟩ := m
  unfold take at h
  split at h
  case h_1 hexpect =>
    cases hexpect
    cases h
    exact hclose rfl rfl
  case h_2 hexpect =>
    cases hexpect
    exact moves_takeValue h
  case h_3 hexpect =>
    cases hexpect
    exact moves_takeValue h
  case h_4 hexpect =>
    cases hexpect
    cases h
    exact hclose rfl rfl
  case h_5 hexpect =>
    cases hexpect
    exact moves_takeName h
  case h_6 hexpect =>
    cases hexpect
    exact moves_takeName h
  case h_7 hexpect =>
    cases hexpect
    cases h
    exact ⟨rfl, fun _ => Nat.le_refl _⟩
  case h_8 hexpect =>
    cases hexpect
    cases h
    exact hclose rfl rfl
  case h_9 hexpect =>
    cases hexpect
    cases h
    exact ⟨rfl, fun _ => Nat.le_refl _⟩
  case h_10 hexpect =>
    cases hexpect
    cases h
    exact hclose rfl rfl
  case h_11 hexpect =>
    cases hexpect
    cases h
    exact ⟨rfl, fun _ => Nat.le_refl _⟩
  case h_12 => cases h

theorem tooDeep?_of_hasOpened (h : m.hasOpened = false) : m.tooDeep? limit = none := by
  obtain ⟨expect, outer⟩ := m
  cases expect with
  | firstItem | firstName => cases h
  | _ => rfl

theorem tooDeep?_of_fits (h : Room.fits limit m.level = true) : m.tooDeep? limit = none := by
  obtain ⟨expect, outer⟩ := m
  cases expect with
  | firstItem => exact if_pos h
  | firstName => exact if_pos h
  | _ => rfl

theorem fits_of_tooDeep? (hopened : m.hasOpened = true) (h : m.tooDeep? limit = none) :
    Room.fits limit m.level = true := by
  obtain ⟨expect, outer⟩ := m
  have hlimit {container : Container}
      (h : (if Room.fits limit (outer.length + 1) then none else some container) = none) :
      Room.fits limit (outer.length + 1) = true := by
    split at h
    next hfits => exact hfits
    · cases h
  cases expect with
  | firstItem | firstName => exact hlimit h
  | _ => cases hopened

theorem step_of_take {lexeme : Lexeme × Nat} (htake : m.take lexeme = .ok m')
    (h : m'.tooDeep? limit = none) : m.step limit lexeme = .ok m' := by
  simp only [step, htake, bind, Except.bind, h]

theorem step_eq_ok_iff {lexeme : Lexeme × Nat} (hm : Room.fits limit m.level = true) :
    m.step limit lexeme = .ok m' ↔
      m.take lexeme = .ok m' ∧ Room.fits limit (levelAfter m.level lexeme.1) = true := by
  constructor
  · intro h
    obtain ⟨m'', htake, h⟩ := exists_of_bind_eq_ok h
    have hmoves := moves_take htake
    split at h
    · cases h
    next hdeep =>
      cases h
      refine ⟨htake, hmoves.level ▸ ?_⟩
      cases hopened : m'.hasOpened with
      | true => exact fits_of_tooDeep? hopened hdeep
      | false => exact Room.fits_of_le (hmoves.le hopened) hm
  · rintro ⟨htake, hfits⟩
    rw [← (moves_take htake).level] at hfits
    exact step_of_take htake (tooDeep?_of_fits hfits)

theorem foldlM_step_eq_ok_iff {ls : List (Lexeme × Nat)} (hm : Room.fits limit m.level = true) :
    ls.foldlM (step limit) m = .ok m' ↔
      ls.foldlM take m = .ok m' ∧ Room.fits limit (depth m.level ls) = true := by
  induction ls generalizing m with
  | nil => exact ⟨fun h => ⟨h, hm⟩, fun h => h.1⟩
  | cons l ls ih =>
    rw [List.foldlM_cons, List.foldlM_cons, depth, Room.fits_max]
    constructor
    · intro h
      obtain ⟨m'', hstep, h⟩ := exists_of_bind_eq_ok h
      obtain ⟨htake, hfits⟩ := (step_eq_ok_iff hm).mp hstep
      rw [← (moves_take htake).level] at hfits ⊢
      obtain ⟨hfold, hdepth⟩ := (ih hfits).mp h
      rw [htake]
      exact ⟨hfold, hm, hdepth⟩
    · rintro ⟨h, -, hdepth⟩
      obtain ⟨m'', htake, h⟩ := exists_of_bind_eq_ok h
      have hfits := Room.fits_of_le (le_depth _ ls) hdepth
      rw [(step_eq_ok_iff hm).mpr ⟨htake, hfits⟩]
      rw [← (moves_take htake).level] at hfits hdepth
      exact (ih hfits).mpr ⟨h, hdepth⟩

end

end Machine

/-! ## What the machine reads -/

def Awaits (m : Machine) (outer : List Open) : Prop :=
  ∀ lexeme offset, lexeme ≠ .mark ']' →
    m.take (lexeme, offset) = Machine.takeValue outer offset lexeme

theorem awaits_value (outer : List Open) : Awaits ⟨.value, outer⟩ outer := fun _ _ _ => rfl

theorem awaits_firstItem (outer : List Open) : Awaits ⟨.firstItem, outer⟩ (.list [] :: outer) := by
  intro lexeme offset h
  simp [Machine.take]

def AwaitsName (m : Machine) (fields : List (String × Value)) (outer : List Open) : Prop :=
  ∀ key offset, m.take (.scalar (.text key), offset) = .ok ⟨.colon fields key, outer⟩

/-- Where the lexemes of a phrase bring a machine that awaits a value. -/
def Phrase.Yields (outer : List Open) : Phrase → Machine → Prop
  | value v, m => m = Machine.supply v outer
  | begun vs, m => Awaits m (.list vs.reverse :: outer)
  | items vs, m => m = ⟨.afterItem vs.reverse, outer⟩
  | names pairs, m => AwaitsName m (Fields.ofList pairs) outer
  | fields pairs, m => m = ⟨.afterField (Fields.ofList pairs), outer⟩
  | object pairs, m => m = Machine.supply (.dict (Fields.ofList pairs)) outer

theorem foldlM_append_of_ok {ls ms : List (Lexeme × Nat)} {m m' : Machine}
    (h : ls.foldlM Machine.take m = .ok m') :
    (ls ++ ms).foldlM Machine.take m = ms.foldlM Machine.take m' := by
  rw [List.foldlM_append, h]
  rfl

theorem foldlM_of_awaits {m : Machine} {outer : List Open} (hm : Awaits m outer) {lexeme : Lexeme}
    (h : lexeme ≠ .mark ']') (i : Nat) (ls : List (Lexeme × Nat)) :
    ((lexeme, i) :: ls).foldlM Machine.take m =
      (Machine.takeValue outer i lexeme).bind (ls.foldlM Machine.take) := by
  rw [List.foldlM_cons, hm lexeme i h]
  rfl

theorem exists_yields {ls : List (Lexeme × Nat)} {phrase : Phrase} (h : Spells ls phrase)
    {m : Machine} {outer : List Open} (hm : Awaits m outer) :
    ∃ m', ls.foldlM Machine.take m = .ok m' ∧ phrase.Yields outer m' := by
  induction h generalizing m outer with
  | scalar v i =>
    rw [foldlM_of_awaits hm (by simp)]
    exact ⟨_, rfl, rfl⟩
  | emptyList i j =>
    rw [foldlM_of_awaits hm (by simp)]
    exact ⟨_, rfl, rfl⟩
  | bracket i =>
    rw [foldlM_of_awaits hm (by simp)]
    exact ⟨_, rfl, awaits_firstItem outer⟩
  | item _ _ ihls ihms =>
    obtain ⟨m', hls, hm'⟩ := ihls hm
    obtain ⟨m'', hms, rfl⟩ := ihms hm'
    rw [foldlM_append_of_ok hls, hms]
    refine ⟨_, rfl, ?_⟩
    rw [Phrase.Yields, List.reverse_append]
    rfl
  | nextItem i _ ih =>
    obtain ⟨m', hls, rfl⟩ := ih hm
    rw [foldlM_append_of_ok hls]
    exact ⟨_, rfl, awaits_value _⟩
  | list i _ ih =>
    obtain ⟨m', hls, rfl⟩ := ih hm
    rw [foldlM_append_of_ok hls]
    refine ⟨_, rfl, ?_⟩
    rw [Phrase.Yields, List.reverse_reverse]
  | emptyObject i j =>
    rw [foldlM_of_awaits hm (by simp)]
    exact ⟨_, rfl, rfl⟩
  | brace i =>
    rw [foldlM_of_awaits hm (by simp)]
    exact ⟨_, rfl, fun _ _ => rfl⟩
  | field key i j _ _ ihls ihms =>
    obtain ⟨m', hls, hm'⟩ := ihls hm
    obtain ⟨m'', hms, rfl⟩ := ihms (awaits_value (.dict _ key :: outer))
    rw [foldlM_append_of_ok hls, List.foldlM_cons, hm']
    refine ⟨_, hms, ?_⟩
    rw [Phrase.Yields, ofList_append]
    rfl
  | nextField i _ ih =>
    obtain ⟨m', hls, rfl⟩ := ih hm
    rw [foldlM_append_of_ok hls]
    exact ⟨_, rfl, fun _ _ => rfl⟩
  | object i _ ih =>
    obtain ⟨m', hls, rfl⟩ := ih hm
    rw [foldlM_append_of_ok hls]
    exact ⟨_, rfl, rfl⟩
  | dict _ ih => exact ih hm

theorem isUnpaired_of_spells {ls : List (Lexeme × Nat)} {phrase : Phrase} (h : Spells ls phrase) :
    ls.any (·.1.isUnpaired) = false := by
  have hmark (c : Char) : (Lexeme.mark c).isUnpaired = false := rfl
  have hscalar (v : Value) : (Lexeme.scalar v).isUnpaired = false := rfl
  induction h with
  | dict _ ih => exact ih
  | _ => simp only [List.any_append, List.any_cons, List.any_nil, Bool.or_false, *]

/-- **The grammar.** A text is read if and only if no byte order mark begins it, its lexemes stand
for a value, which is the value that is read, and its brackets are no deeper than the limit. -/
theorem read_eq_ok_iff {cs : List Char} {limit : Option Nat} {v : Value} :
    read cs limit = .ok v ↔ cs.head? ≠ some '\ufeff' ∧ Spells (lexemes 0 cs) (.value v) ∧
      Room.fits limit (depth 0 (lexemes 0 cs)) = true := by
  by_cases hmark : cs.head? = some '\ufeff'
  · simp [read, hmark]
  have hstart : Room.fits limit Machine.start.level = true := Room.fits_zero limit
  rw [read, if_neg hmark]
  constructor
  · intro h
    obtain ⟨m, hm, h⟩ := exists_of_bind_eq_ok h
    obtain ⟨w, hfinish, h⟩ := exists_of_bind_eq_ok h
    split at h
    · cases h
    next hpaired =>
    cases h
    obtain ⟨htake, hdepth⟩ := (Machine.foldlM_step_eq_ok_iff hstart).mp hm
    have hreached := reached_foldlM (.value .nil) (by simpa using hpaired) htake
    obtain ⟨expect, outer⟩ := m
    unfold Machine.finish at hfinish
    split at hfinish
    · next hexpect =>
      cases hexpect
      cases hfinish
      exact ⟨hmark, spells_of_reached hreached, hdepth⟩
    · cases hfinish
  · rintro ⟨-, h, hdepth⟩
    obtain ⟨m, hm, rfl⟩ := exists_yields h (awaits_value [])
    have hpaired := isUnpaired_of_spells h
    have hfold := (Machine.foldlM_step_eq_ok_iff hstart).mpr ⟨hm, hdepth⟩
    simp only [hfold, bind, Except.bind, Machine.supply, Machine.finish, hpaired]
    rfl

/-! ## Dictionaries -/

theorem isContainer_of_scalar {cs : List Char} {v : Value} (h : (scalar cs).1 = .scalar v) :
    v.isContainer = false := by
  unfold scalar at h
  split at h
  · next word w hfind =>
    cases h
    have hwords : ∀ w ∈ words, w.2.isContainer = false := by decide
    exact hwords _ (List.mem_of_find?_eq_some hfind)
  split at h
  · cases h
    rfl
  · cases h
  · cases h

theorem isContainer_of_ofParts {parts : List Part} {v : Value} (h : ofParts parts = .scalar v) :
    v.isContainer = false := by
  unfold ofParts at h
  split at h
  · cases h
    rfl
  · cases h

theorem isContainer_of_first {i : Nat} {c : Char} {r : List Char} {v : Value}
    (h : (first i c r).1 = .scalar v) : v.isContainer = false := by
  unfold first at h
  split at h
  · cases h
  split at h
  · split at h
    · exact isContainer_of_ofParts h
    · cases h
  · exact isContainer_of_scalar h

theorem isContainer_of_mem_lexemes {i : Nat} {cs : List Char} {v : Value} {j : Nat}
    (h : (.scalar v, j) ∈ lexemes i cs) : v.isContainer = false := by
  fun_induction lexemes i cs with
  | case1 => cases h
  | case2 i c r _ ih => exact ih h
  | case3 i c r _ lexeme length hfirst ih =>
    rcases List.mem_cons.mp h with h | h
    · cases h
      exact isContainer_of_first (congrArg Prod.fst hfirst)
    · split at h
      · exact ih h
      · cases h

theorem read_eq_dict_iff {cs : List Char} {limit : Option Nat} {fields : List (String × Value)} :
    read cs limit = .ok (.dict fields) ↔ cs.head? ≠ some '\ufeff' ∧
      Room.fits limit (depth 0 (lexemes 0 cs)) = true ∧
      ∃ pairs, Spells (lexemes 0 cs) (.object pairs) ∧ fields = Fields.ofList pairs := by
  rw [read_eq_ok_iff]
  refine and_congr_right fun _ => ⟨fun ⟨h, hdepth⟩ => ⟨hdepth, ?_⟩, ?_⟩
  · generalize hls : lexemes 0 cs = ls at h
    cases h with
    | scalar _ i =>
      have hmem : (.scalar (.dict fields), i) ∈ lexemes 0 cs := hls ▸ .head _
      cases isContainer_of_mem_lexemes hmem
    | dict h => exact ⟨_, h, rfl⟩
  · rintro ⟨hdepth, pairs, h, rfl⟩
    exact ⟨.dict h, hdepth⟩

end StackForest.Json
