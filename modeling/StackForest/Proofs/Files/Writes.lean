import StackForest.Proofs.Files

/-!
# Writing several files

Where some of several paths lead to one place, the last text stays, and nothing else changes.
-/

namespace StackForest.Files

def writeAll (t : Files) (texts : List (String × List Char)) : Except Fault Files :=
  texts.foldlM (fun t w => t.write w.1 (Text.Utf8.encode w.2)) t

theorem writeAll_append {t t' : Files} {texts : List (String × List Char)}
    (h : t.writeAll texts = .ok t') (more : List (String × List Char)) :
    t.writeAll (texts ++ more) = t'.writeAll more := by
  unfold writeAll at h ⊢
  rw [List.foldlM_append, h]
  rfl

/-- `t'` is `t` with some texts written to their paths. All the paths are seen from `t`. -/
structure Overwritten (t : Files) (texts : List (String × List Char)) (t' : Files) : Prop where
  directories : SameDirectories t t'
  leads : ∀ w ∈ texts, ∃ place, t.place w.1 = .ok place
  last : ∀ front w back place, texts = front ++ w :: back → t.place w.1 = .ok place →
    (∀ later ∈ back, t.place later.1 ≠ .ok place) →
    t'.node? place = some (.file (Text.Utf8.encode w.2))
  others : ∀ place, (∀ w ∈ texts, t.place w.1 ≠ .ok place) → t'.node? place = t.node? place

theorem overwritten_nil (t : Files) : Overwritten t [] t where
  directories := ⟨rfl, fun _ => Iff.rfl⟩
  leads := by simp
  last := by simp
  others := fun _ _ => rfl

theorem overwritten_cons {t t' t'' : Files} {w : String × List Char}
    {texts : List (String × List Char)} (hw : t.write w.1 (Text.Utf8.encode w.2) = .ok t')
    (h : Overwritten t' texts t'') : Overwritten t (w :: texts) t'' := by
  obtain ⟨p, -, hplace, hdir, rfl⟩ := put_of_write hw
  have hsame := sameDirectories_put hdir (Text.Utf8.encode w.2)
  have hput : (t.put p _).node? p = some (.file (Text.Utf8.encode w.2)) :=
    node?_put_self (ne_nil_of_not_directory hdir) _
  constructor
  case directories => exact hsame.trans h.directories
  case leads =>
    intro v hv
    rcases List.mem_cons.mp hv with rfl | hv
    · exact ⟨p, hplace⟩
    · obtain ⟨q, hq⟩ := h.leads v hv
      exact ⟨q, hsame.place_eq_ok_iff.mp hq⟩
  case last =>
    intro front v back q hsplit hq hlater
    have hlater' (u) (hu : u ∈ back) : (t.put p _).place u.1 ≠ .ok q := fun h =>
      hlater u hu (hsame.place_eq_ok_iff.mp h)
    rcases List.cons_eq_append_iff.mp hsplit with ⟨rfl, hback⟩ | ⟨front', rfl, hback⟩
    · -- the first text itself, to whose place no other one goes
      obtain ⟨rfl, rfl⟩ := List.cons.inj hback
      obtain rfl : q = p := Except.ok.inj (hq.symm.trans hplace)
      rw [h.others q hlater', hput]
    · exact h.last front' v back q hback (hsame.place_eq_ok_iff.mpr hq) hlater'
  case others =>
    intro q hq
    have hne : q ≠ p := by
      rintro rfl
      exact hq w List.mem_cons_self hplace
    have hrest (v) (hv : v ∈ texts) : (t.put p _).place v.1 ≠ .ok q := fun h =>
      hq v (List.mem_cons_of_mem w hv) (hsame.place_eq_ok_iff.mp h)
    rw [h.others q hrest, node?_put_of_ne hne]

theorem overwritten_of_writeAll {t t' : Files} {texts : List (String × List Char)}
    (h : t.writeAll texts = .ok t') : Overwritten t texts t' := by
  induction texts generalizing t with
  | nil =>
    cases h
    exact overwritten_nil _
  | cons w texts ih =>
    rw [writeAll, List.foldlM_cons] at h
    obtain ⟨t₁, hw, h⟩ := exists_of_bind_eq_ok h
    exact overwritten_cons hw (ih h)

end StackForest.Files
