import StackForest.Proofs.Json.Grammar
import StackForest.Proofs.Json.Number
import StackForest.Proofs.Json.Text

/-!
# Reading a written JSON text back

A value whose numbers can be stored and whose keys are told apart is read back from the text that
any layout of blanks gives it (`read_render`).
-/

namespace StackForest

open Text

/-- The values that a JSON text can hold. -/
inductive Value.IsStorable : Value → Prop
  | null : IsStorable null
  | bool (b : Bool) : IsStorable (bool b)
  | number {n : Number} : n.isStorable = true → IsStorable (number n)
  | text (s : String) : IsStorable (text s)
  | list {vs : List Value} : (∀ v ∈ vs, IsStorable v) → IsStorable (list vs)
  | dict {fields : List (String × Value)} : (fields.map Prod.fst).Nodup →
    (∀ f ∈ fields, IsStorable f.2) → IsStorable (dict fields)

namespace Json

/-- The layouts that put nothing but blanks between lexemes. -/
def Layout.IsBlank : Layout → Prop
  | line => True
  | indented unit => ∀ c ∈ unit, Json.isBlank c = true

theorem Layout.isBlank_spaces (n : Int) : (spaces n).IsBlank := by
  intro c hc
  rw [List.eq_of_mem_replicate hc]
  rfl

section
variable {l : Layout} (hl : l.IsBlank) (depth : Nat)
include hl

theorem Layout.isBlank_of_mem_edge : ∀ c ∈ l.edge depth, Json.isBlank c = true := by
  cases l with
  | line => simp [edge]
  | indented unit =>
    simp only [edge, List.forall_mem_cons, List.mem_flatten, List.mem_replicate]
    refine ⟨rfl, ?_⟩
    rintro c ⟨_, ⟨-, rfl⟩, hc⟩
    exact hl c hc

theorem Layout.isBlank_of_mem_gap : ∀ c ∈ l.gap depth, Json.isBlank c = true := by
  cases l with
  | line => exact List.forall_mem_singleton.mpr rfl
  | indented unit => exact isBlank_of_mem_edge hl depth

end

/-! ## Lexemes that the machine takes -/

/-- Lexemes that bring a machine from one state to another, none of them half of a pair. -/
structure Drives (limit : Option Nat) (m : Machine) (ls : List (Lexeme × Nat)) (m' : Machine) :
    Prop where
  steps : ls.foldlM (Machine.step limit) m = .ok m'
  paired : ls.any (·.1.isUnpaired) = false

/-- The text `cs` has lexemes of its own, whatever ends it, and these bring the machine from one
state to another. -/
def Leads (limit : Option Nat) (m : Machine) (cs : List Char) (m' : Machine) : Prop :=
  ∀ offset r, Ends r → ∃ ls behind,
    lexemes offset (cs ++ r) = ls ++ lexemes behind r ∧ Drives limit m ls m'

section
variable {limit : Option Nat} {m m' m'' : Machine} {cs ds : List Char}

theorem drives_cons {lexeme : Lexeme × Nat} {ls : List (Lexeme × Nat)}
    (hpaired : lexeme.1.isUnpaired = false) (hstep : m.step limit lexeme = .ok m')
    (h : Drives limit m' ls m'') : Drives limit m (lexeme :: ls) m'' := by
  refine ⟨?_, ?_⟩
  · rw [List.foldlM_cons, hstep]
    exact h.steps
  · rw [List.any_cons, hpaired, h.paired]
    rfl

theorem drives_append {ls ms : List (Lexeme × Nat)} (h : Drives limit m ls m')
    (h' : Drives limit m' ms m'') : Drives limit m (ls ++ ms) m'' := by
  refine ⟨?_, ?_⟩
  · rw [List.foldlM_append, h.steps]
    exact h'.steps
  · rw [List.any_append, h.paired, h'.paired]
    rfl

theorem lexemes_blank {c : Char} (hc : isBlank c = true) (offset : Nat) (r : List Char) :
    lexemes offset (c :: r) = lexemes (offset + 1) r := by
  rw [lexemes, if_pos hc]

theorem lexemes_of_first {offset : Nat} {c : Char} {r : List Char} {lexeme : Lexeme}
    (hc : isBlank c = false) (hfirst : first offset c (cs ++ r) = (lexeme, cs.length))
    (hcomplete : lexeme.isComplete = true) :
    lexemes offset (c :: (cs ++ r)) = (lexeme, offset) :: lexemes (offset + 1 + cs.length) r := by
  rw [lexemes, if_neg (by simp [hc]), hfirst]
  simp only [hcomplete, if_true, List.drop_left]

theorem leads_nil : Leads limit m [] m := fun offset _ _ => ⟨[], offset, rfl, rfl, rfl⟩

theorem leads_append (h : Leads limit m cs m') (h' : Leads limit m' ds m'')
    (hds : ∀ r, Ends (ds ++ r)) : Leads limit m (cs ++ ds) m'' := by
  intro offset r hr
  obtain ⟨ls, middle, hcs, hls⟩ := h offset (ds ++ r) (hds r)
  obtain ⟨ms, behind, hds, hms⟩ := h' middle r hr
  refine ⟨ls ++ ms, behind, ?_, drives_append hls hms⟩
  rw [List.append_assoc, hcs, hds, List.append_assoc]

theorem leads_blanks {bs : List Char} (hbs : ∀ c ∈ bs, isBlank c = true) (h : Leads limit m cs m') :
    Leads limit m (bs ++ cs) m' := by
  induction bs with
  | nil => exact h
  | cons b bs ih =>
    rw [List.forall_mem_cons] at hbs
    intro offset r hr
    rw [List.cons_append, List.cons_append, lexemes_blank hbs.1]
    exact ih hbs.2 (offset + 1) r hr

theorem leads_mark {c : Char} (hc : isMark c = true)
    (hstep : ∀ offset, m.step limit (.mark c, offset) = .ok m') (h : Leads limit m' cs m'') :
    Leads limit m (c :: cs) m'' := by
  intro offset r hr
  have hblank : isBlank c = false := by
    simp only [isMark, Bool.or_eq_true, beq_iff_eq] at hc
    rcases hc with ((((rfl | rfl) | rfl) | rfl) | rfl) | rfl <;> decide
  have hfirst : first offset c ([] ++ (cs ++ r)) = (.mark c, ([] : List Char).length) :=
    if_pos hc
  obtain ⟨ls, behind, hcs, hls⟩ := h (offset + 1) r hr
  refine ⟨(.mark c, offset) :: ls, behind, ?_, drives_cons rfl (hstep offset) hls⟩
  rw [List.cons_append, List.cons_append, ← hcs]
  exact lexemes_of_first hblank hfirst rfl

theorem leads_close {c : Char} {v : Value} {outer : List Open} (hc : isMark c = true)
    (htake : ∀ offset, m.take (.mark c, offset) = .ok (Machine.supply v outer)) :
    Leads limit m [c] (Machine.supply v outer) :=
  leads_mark hc (fun offset => Machine.step_of_take (htake offset)
    (Machine.tooDeep?_of_hasOpened (Machine.hasOpened_supply v outer))) leads_nil

theorem leads_quote {s : String}
    (hstep : ∀ offset, m.step limit (.scalar (.text s), offset) = .ok m')
    (h : Leads limit m' cs m'') : Leads limit m (quote s ++ cs) m'' := by
  intro offset r hr
  have hfirst := first_quote s offset (cs ++ r)
  have hquote : quote s ++ cs ++ r =
      '"' :: ((s.toList.flatMap escape ++ ['"']) ++ (cs ++ r)) := by simp [quote]
  obtain ⟨ls, behind, hcs, hls⟩ :=
    h (offset + 1 + (s.toList.flatMap escape ++ ['"']).length) r hr
  refine ⟨(.scalar (.text s), offset) :: ls, behind, ?_, drives_cons rfl (hstep offset) hls⟩
  rw [List.cons_append, ← hcs, hquote]
  refine lexemes_of_first (by decide) ?_ rfl
  rw [← hfirst]
  simp

theorem step_of_awaits {outer : List Open} (hm : Awaits m outer) (v : Value) (offset : Nat) :
    m.step limit (.scalar v, offset) = .ok (Machine.supply v outer) :=
  Machine.step_of_take (hm _ offset (by simp))
    (Machine.tooDeep?_of_hasOpened (Machine.hasOpened_supply v outer))

end

/-! ## Values -/

theorem ends_blanks {bs : List Char} (hbs : ∀ c ∈ bs, isBlank c = true) {c : Char}
    (hc : isMark c = true) (r : List Char) : Ends (bs ++ c :: r) := by
  cases bs with
  | nil =>
    rintro _ ⟨⟩
    exact .inl hc
  | cons b bs =>
    rintro _ ⟨⟩
    exact .inr (hbs b (by simp))

/-- A value of which every text in the layout is read as this value, inside `n` containers. -/
def ReadBack (limit : Option Nat) (l : Layout) (n : Nat) (v : Value) : Prop :=
  ∀ depth m outer, outer.length = n → Awaits m outer →
    Leads limit m (write l depth v) (Machine.supply v outer)

section
variable {limit : Option Nat} {l : Layout} (hl : l.IsBlank) {bs : List Char}
  (hbs : ∀ c ∈ bs, isBlank c = true)
  (depth : Nat) (outer : List Open)

theorem ends_items (hbs : ∀ c ∈ bs, isBlank c = true) (vs : List Value) (r : List Char) :
    Ends (writeItems l depth vs ++ (bs ++ [']']) ++ r) := by
  cases vs with
  | nil =>
    rw [writeItems, List.nil_append, List.append_assoc]
    exact ends_blanks hbs rfl _
  | cons v vs =>
    rintro _ ⟨⟩
    exact .inl rfl

include hl hbs in
theorem leads_items {vs : List Value} (hvs : ∀ v ∈ vs, ReadBack limit l (outer.length + 1) v)
    (done : List Value) :
    Leads limit ⟨.afterItem done, outer⟩ (writeItems l depth vs ++ (bs ++ [']']))
      (Machine.supply (.list (done.reverse ++ vs)) outer) := by
  induction vs generalizing done with
  | nil =>
    rw [writeItems, List.nil_append, List.append_nil]
    exact leads_blanks hbs (leads_close rfl fun _ => rfl)
  | cons v vs ih =>
    rw [List.forall_mem_cons] at hvs
    have hitem := hvs.1 depth _ _ rfl (awaits_value (.list done :: outer))
    have hrest := ih hvs.2 (v :: done)
    rw [List.reverse_cons, List.append_assoc] at hrest
    have htext : writeItems l depth (v :: vs) ++ (bs ++ [']']) =
        ',' :: (l.gap depth ++ (write l depth v ++ (writeItems l depth vs ++ (bs ++ [']'])))) := by
      simp [writeItems]
    rw [htext]
    refine leads_mark rfl (fun _ => rfl) (leads_blanks (l.isBlank_of_mem_gap hl depth) ?_)
    exact leads_append hitem hrest (ends_items depth hbs vs)

theorem ends_fields (hbs : ∀ c ∈ bs, isBlank c = true) (fields : List (String × Value))
    (r : List Char) : Ends (writeFields l depth fields ++ (bs ++ ['\x7d']) ++ r) := by
  cases fields with
  | nil =>
    rw [writeFields, List.nil_append, List.append_assoc]
    exact ends_blanks hbs rfl _
  | cons f fields =>
    rintro _ ⟨⟩
    exact .inl rfl

theorem leads_field {m m' : Machine} {key : String} {v : Value} {done : List (String × Value)}
    {ds : List Char} (hv : ReadBack limit l (outer.length + 1) v) (hkey : key ∉ done.map Prod.fst)
    (hstep : ∀ offset, m.step limit (.scalar (.text key), offset) = .ok ⟨.colon done key, outer⟩)
    (h : Leads limit ⟨.afterField (done ++ [(key, v)]), outer⟩ ds m')
    (hds : ∀ r, Ends (ds ++ r)) :
    Leads limit m (quote key ++ ':' :: ' ' :: (write l depth v ++ ds)) m' := by
  have hvalue := hv depth _ _ rfl (awaits_value (.dict done key :: outer))
  rw [Machine.supply, Fields.put_of_not_mem v hkey] at hvalue
  have hspace : ∀ c ∈ [' '], isBlank c = true := List.forall_mem_singleton.mpr rfl
  refine leads_quote hstep (leads_mark rfl (fun _ => rfl) ?_)
  exact leads_blanks hspace (leads_append hvalue h hds)

include hl hbs in
theorem leads_fields {fields done : List (String × Value)}
    (hfields : ∀ f ∈ fields, ReadBack limit l (outer.length + 1) f.2)
    (hkeys : ((done ++ fields).map Prod.fst).Nodup) :
    Leads limit ⟨.afterField done, outer⟩ (writeFields l depth fields ++ (bs ++ ['\x7d']))
      (Machine.supply (.dict (done ++ fields)) outer) := by
  induction fields generalizing done with
  | nil =>
    rw [writeFields, List.nil_append, List.append_nil]
    exact leads_blanks hbs (leads_close rfl fun _ => rfl)
  | cons f fields ih =>
    rw [List.forall_mem_cons] at hfields
    have hkey : f.1 ∉ done.map Prod.fst := by
      rw [List.map_append, List.map_cons, List.nodup_append] at hkeys
      exact fun hmem => hkeys.2.2 _ hmem _ (by simp) rfl
    have happend : done ++ f :: fields = (done ++ [f]) ++ fields := by simp
    rw [happend] at hkeys ⊢
    have htext : writeFields l depth (f :: fields) ++ (bs ++ ['\x7d']) =
        ',' :: (l.gap depth ++ (quote f.1 ++ ':' :: ' ' :: (write l depth f.2 ++
          (writeFields l depth fields ++ (bs ++ ['\x7d']))))) := by
      simp [writeFields]
    rw [htext]
    refine leads_mark rfl (fun _ => rfl) (leads_blanks (l.isBlank_of_mem_gap hl depth) ?_)
    exact leads_field depth outer hfields.1 hkey (fun _ => rfl) (ih hfields.2 hkeys)
      (ends_fields depth hbs fields)

end

def isScalarStart (c : Char) : Bool := !isBlank c && !isMark c && c != '"' && c != '\ufeff'

theorem leads_scalar {limit : Option Nat} {m : Machine} {outer : List Open} (hm : Awaits m outer)
    {v : Value} {c : Char} {cs : List Char} (hc : isScalarStart c = true)
    (hscalar : ∀ r, Ends r → scalar (c :: (cs ++ r)) = (.scalar v, (c :: cs).length)) :
    Leads limit m (c :: cs) (Machine.supply v outer) := by
  simp only [isScalarStart, Bool.and_eq_true, Bool.not_eq_true', bne_iff_ne] at hc
  obtain ⟨⟨⟨hblank, hmark⟩, hquote⟩, -⟩ := hc
  intro offset r hr
  have hfirst : first offset c (cs ++ r) = (.scalar v, cs.length) := by
    rw [first, if_neg (by simp [hmark]), if_neg hquote, hscalar r hr]
    rfl
  exact ⟨[(.scalar v, offset)], _, lexemes_of_first hblank hfirst rfl,
    drives_cons rfl (step_of_awaits hm v offset) ⟨rfl, rfl⟩⟩

theorem writeNumber_cases {n : Number} (hn : n.isStorable = true) :
    (n.isWritable = true ∧ writeNumber n = n.render) ∨
      writeNumber n = "Infinity".toList ∨ writeNumber n = "-Infinity".toList := by
  cases n with
  | int i => exact .inl ⟨hn, rfl⟩
  | real x =>
    cases x with
    | finite negative rank => exact .inl ⟨rfl, rfl⟩
    | infinite negative =>
      cases negative with
      | true => exact .inr (.inr rfl)
      | false => exact .inr (.inl rfl)
    | nan => cases hn

theorem exists_writeNumber {n : Number} (hn : n.isStorable = true) :
    ∃ c cs, writeNumber n = c :: cs ∧ isScalarStart c = true := by
  rcases writeNumber_cases hn with ⟨h, htext⟩ | htext | htext
  · obtain ⟨c, cs, hc⟩ := List.exists_cons_of_ne_nil (Number.render_ne_nil h)
    have hreal := Number.isRealChar_render h c (by simp [hc])
    exact ⟨c, cs, htext.trans hc, Binary64.of_isRealChar (by decide) hreal⟩
  · exact ⟨_, _, htext, by decide⟩
  · exact ⟨_, _, htext, by decide⟩

section
variable {limit : Option Nat} {l : Layout} (hl : l.IsBlank) {n : Nat}
  (hn : Room.fits limit (n + 1) = true)
include hl hn

theorem readBack_list {vs : List Value} (hvs : ∀ v ∈ vs, ReadBack limit l (n + 1) v) :
    ReadBack limit l n (.list vs) := by
  rintro depth m outer rfl hm
  have hopen (offset : Nat) : m.step limit (.mark '[', offset) = .ok ⟨.firstItem, outer⟩ :=
    Machine.step_of_take (hm _ offset (by simp)) (Machine.tooDeep?_of_fits hn)
  cases vs with
  | nil => exact leads_mark rfl hopen (leads_close rfl fun _ => rfl)
  | cons v vs =>
    rw [List.forall_mem_cons] at hvs
    have hclose := l.isBlank_of_mem_edge hl depth
    have htext : write l depth (.list (v :: vs)) =
        '[' :: (l.edge (depth + 1) ++ (write l (depth + 1) v ++
          (writeItems l (depth + 1) vs ++ (l.edge depth ++ [']'])))) := by
      simp [write]
    rw [htext]
    refine leads_mark rfl hopen (leads_blanks (l.isBlank_of_mem_edge hl _) ?_)
    exact leads_append (hvs.1 _ _ _ rfl (awaits_firstItem outer))
      (leads_items hl hclose _ outer hvs.2 [v]) (ends_items _ hclose vs)

theorem readBack_dict {fields : List (String × Value)} (hkeys : (fields.map Prod.fst).Nodup)
    (hfields : ∀ f ∈ fields, ReadBack limit l (n + 1) f.2) :
    ReadBack limit l n (.dict fields) := by
  rintro depth m outer rfl hm
  have hopen (offset : Nat) : m.step limit (.mark '\x7b', offset) = .ok ⟨.firstName, outer⟩ :=
    Machine.step_of_take (hm _ offset (by simp)) (Machine.tooDeep?_of_fits hn)
  cases fields with
  | nil => exact leads_mark rfl hopen (leads_close rfl fun _ => rfl)
  | cons f fields =>
    rw [List.forall_mem_cons] at hfields
    have hclose := l.isBlank_of_mem_edge hl depth
    have htext : write l depth (.dict (f :: fields)) =
        '\x7b' :: (l.edge (depth + 1) ++ (quote f.1 ++ ':' :: ' ' :: (write l (depth + 1) f.2 ++
          (writeFields l (depth + 1) fields ++ (l.edge depth ++ ['\x7d']))))) := by
      simp [write]
    have hkey : f.1 ∉ ([] : List (String × Value)).map Prod.fst := by simp
    rw [htext]
    refine leads_mark rfl hopen (leads_blanks (l.isBlank_of_mem_edge hl _) ?_)
    exact leads_field _ outer hfields.1 hkey (fun _ => rfl)
      (leads_fields hl hclose _ outer hfields.2 hkeys) (ends_fields _ hclose fields)

end

theorem readBack {limit : Option Nat} {l : Layout} (hl : l.IsBlank) {v : Value} (hv : v.IsStorable)
    {n : Nat} (hfits : Room.fits limit (n + v.nesting) = true) : ReadBack limit l n v := by
  induction hv generalizing n with
  | null =>
    intro depth m outer _ hm
    exact leads_scalar hm (by decide) fun _ _ => rfl
  | bool b =>
    intro depth m outer _ hm
    cases b with
    | true => exact leads_scalar hm (by decide) fun _ _ => rfl
    | false => exact leads_scalar hm (by decide) fun _ _ => rfl
  | number hn =>
    intro depth m outer _ hm
    obtain ⟨c, cs, htext, hc⟩ := exists_writeNumber hn
    have hscalar (r : List Char) (hr : Ends r) := scalar_writeNumber hn hr
    rw [write]
    rw [htext] at hscalar ⊢
    exact leads_scalar hm hc hscalar
  | text s =>
    intro depth m outer _ hm
    rw [write, ← List.append_nil (quote s)]
    exact leads_quote (step_of_awaits hm _) leads_nil
  -- one container more is open around what is in a list or a dictionary
  | list _ ih =>
    rw [Value.nesting] at hfits
    refine readBack_list hl (Room.fits_of_le (by omega) hfits) fun v hv => ih v hv ?_
    have hle := Value.nesting_le_of_mem hv
    exact Room.fits_of_le (by omega) hfits
  | dict hkeys _ ih =>
    rw [Value.nesting] at hfits
    refine readBack_dict hl (Room.fits_of_le (by omega) hfits) hkeys fun f hf => ih f hf ?_
    have hle := Value.nesting_le_of_mem_fields hf
    exact Room.fits_of_le (by omega) hfits

theorem head?_write (l : Layout) (depth : Nat) {v : Value} (hv : v.IsStorable) :
    (write l depth v).head? ≠ some '\ufeff' := by
  intro h
  cases hv with
  | null => cases h
  | bool b => cases b <;> cases h
  | number hn =>
    obtain ⟨c, cs, htext, hc⟩ := exists_writeNumber hn
    rw [write, htext] at h
    cases h
    exact absurd hc (by decide)
  | text s => cases h
  | @list vs _ => cases vs <;> cases h
  | @dict fields _ _ => cases fields <;> cases h

/-- A storable value is read back from its text, whatever blanks the layout puts into it, if the
limit leaves room for it. -/
theorem read_render {limit : Option Nat} {l : Layout} (hl : l.IsBlank) {v : Value}
    (hv : v.IsStorable) (hfits : Room.fits limit v.nesting = true) :
    read (render l v) limit = .ok v := by
  have hnil : Ends [] := by simp [Ends]
  have hstart : Room.fits limit (0 + v.nesting) = true := by rwa [Nat.zero_add]
  obtain ⟨ls, behind, hlexemes, hls⟩ :=
    readBack hl hv hstart 0 Machine.start [] rfl (awaits_value []) 0 [] hnil
  have hend : lexemes behind [] = [] := by rw [lexemes]
  rw [List.append_nil, hend, List.append_nil] at hlexemes
  rw [read, render, if_neg (head?_write l 0 hv)]
  simp only [hlexemes, hls.steps, bind, Except.bind, hls.paired]
  rfl

/-! ## The characters of a written text -/

theorem graphic_of_mem_unicodeEscape {n : Nat} {c : Char} (h : c ∈ unicodeEscape n) :
    0x20 ≤ c.toNat := by
  have hdigits : ∀ d < 16, 0x20 ≤ (hexDigit d).toNat := by decide
  have hdigit (k : Nat) : 0x20 ≤ (hexDigit (k % 16)).toNat :=
    hdigits _ (Nat.mod_lt k (by decide))
  simp only [unicodeEscape, hex, List.nil_append, List.cons_append, List.mem_cons,
    List.not_mem_nil, or_false] at h
  rcases h with rfl | rfl | rfl | rfl | rfl | rfl
  · decide
  · decide
  all_goals exact hdigit _

theorem graphic_of_mem_escape (c : Char) : ∀ d ∈ escape c, 0x20 ≤ d.toNat := by
  have hpair (e : Char) (he : 0x20 ≤ e.toNat) : ∀ d ∈ ['\\', e], 0x20 ≤ d.toNat :=
    List.forall_mem_cons.mpr ⟨by decide, List.forall_mem_singleton.mpr he⟩
  unfold escape
  simp only
  split
  · next h => exact hpair c (by rcases h with rfl | rfl <;> decide)
  split
  · exact hpair 'n' (by decide)
  split
  · exact hpair 'r' (by decide)
  split
  · exact hpair 't' (by decide)
  split
  · exact hpair 'b' (by decide)
  split
  · exact hpair 'f' (by decide)
  split
  · next h => exact List.forall_mem_singleton.mpr h.1
  split
  · exact fun _ => graphic_of_mem_unicodeEscape
  · rw [List.forall_mem_append]
    exact ⟨fun _ => graphic_of_mem_unicodeEscape, fun _ => graphic_of_mem_unicodeEscape⟩

theorem graphic_of_mem_writeNumber {n : Number} (hn : n.isStorable = true) :
    ∀ c ∈ writeNumber n, 0x20 ≤ c.toNat := by
  rcases writeNumber_cases hn with ⟨h, htext⟩ | htext | htext
  · intro c hc
    rw [htext] at hc
    have hreal := Number.isRealChar_render h c hc
    have hgraphic : decide (0x20 ≤ c.toNat) = true :=
      Binary64.of_isRealChar (p := fun c => decide (0x20 ≤ c.toNat)) (by decide) hreal
    exact of_decide_eq_true hgraphic
  · simp [htext]
  · simp [htext]

section
variable {P : Char → Prop} (hgraphic : ∀ c, 0x20 ≤ c.toNat → P c)
include hgraphic

theorem forall_mem_quote (s : String) : ∀ c ∈ quote s, P c := by
  intro c hc
  simp only [quote, List.cons_append, List.mem_cons, List.mem_append, List.mem_flatMap,
    List.not_mem_nil, or_false] at hc
  rcases hc with rfl | ⟨d, -, hc⟩ | rfl
  · exact hgraphic _ (by decide)
  · exact hgraphic c (graphic_of_mem_escape d c hc)
  · exact hgraphic _ (by decide)

variable {l : Layout} (hedge : ∀ depth, ∀ c ∈ l.edge depth, P c)
  (hgap : ∀ depth, ∀ c ∈ l.gap depth, P c)

include hgap in
theorem forall_mem_writeItems {vs : List Value}
    (hvs : ∀ v ∈ vs, ∀ depth, ∀ c ∈ write l depth v, P c) (depth : Nat) :
    ∀ c ∈ writeItems l depth vs, P c := by
  induction vs with
  | nil => simp [writeItems]
  | cons v vs ih =>
    rw [List.forall_mem_cons] at hvs
    simp only [writeItems, List.cons_append, List.forall_mem_cons, List.forall_mem_append]
    exact ⟨hgraphic _ (by decide), ⟨hgap depth, hvs.1 depth⟩, ih hvs.2⟩

include hgap in
theorem forall_mem_writeFields {fields : List (String × Value)}
    (hfields : ∀ f ∈ fields, ∀ depth, ∀ c ∈ write l depth f.2, P c) (depth : Nat) :
    ∀ c ∈ writeFields l depth fields, P c := by
  induction fields with
  | nil => simp [writeFields]
  | cons f fields ih =>
    rw [List.forall_mem_cons] at hfields
    simp only [writeFields, List.cons_append, List.forall_mem_cons, List.forall_mem_append]
    exact ⟨hgraphic _ (by decide), ⟨⟨hgap depth, forall_mem_quote hgraphic f.1⟩,
      hgraphic _ (by decide), hgraphic _ (by decide), hfields.1 depth⟩, ih hfields.2⟩

include hedge hgap in
theorem forall_mem_write {v : Value} (hv : v.IsStorable) (depth : Nat) :
    ∀ c ∈ write l depth v, P c := by
  have hword (cs : List Char) (h : ∀ c ∈ cs, 0x20 ≤ c.toNat) : ∀ c ∈ cs, P c :=
    fun c hc => hgraphic c (h c hc)
  induction hv generalizing depth with
  | null => exact hword "null".toList (by simp)
  | bool b =>
    cases b with
    | true => exact hword "true".toList (by simp)
    | false => exact hword "false".toList (by simp)
  | number hn => exact hword _ (graphic_of_mem_writeNumber hn)
  | text s => exact forall_mem_quote hgraphic s
  | @list vs _ ih =>
    cases vs with
    | nil => exact hword ['[', ']'] (by simp)
    | cons v vs =>
      rw [List.forall_mem_cons] at ih
      have hitems := forall_mem_writeItems hgraphic hgap ih.2 (depth + 1)
      simp only [write, List.cons_append, List.forall_mem_cons, List.forall_mem_append]
      exact ⟨hgraphic _ (by decide), ⟨⟨⟨hedge _, ih.1 _⟩, hitems⟩, hedge _⟩,
        hgraphic _ (by decide), by simp⟩
  | @dict fields _ _ ih =>
    cases fields with
    | nil => exact hword ['\x7b', '\x7d'] (by simp)
    | cons f fields =>
      rw [List.forall_mem_cons] at ih
      have hfields := forall_mem_writeFields hgraphic hgap ih.2 (depth + 1)
      simp only [write, List.cons_append, List.forall_mem_cons, List.forall_mem_append]
      exact ⟨hgraphic _ (by decide), ⟨⟨⟨⟨hedge _, forall_mem_quote hgraphic f.1⟩,
        hgraphic _ (by decide), hgraphic _ (by decide), ih.1 _⟩, hfields⟩, hedge _⟩,
        hgraphic _ (by decide), by simp⟩

end

end Json
end StackForest
