import StackForest.Proofs.Concise.Lexeme
import Mathlib.Computability.Language

/-!
# The pattern of quoted strings

No text begins with two quoted strings of different lengths, so it does not matter how a match is
searched for (`quotedPattern_encode`).
-/

namespace StackForest

open Text Text.Quoted

namespace Concise

def plainCharacter : Language Char := {cs | ∃ c, cs = [c] ∧ c ≠ '"' ∧ c ≠ '\\'}

def escapedPair : Language Char := {cs | ∃ c, cs = ['\\', c] ∧ c ≠ '\n'}

def quotedPattern : Language Char :=
  {['"']} * KStar.kstar (plainCharacter + escapedPair) * {['"']}

/-! ## What matches -/

theorem cons_mem_kstar {L : Language Char} {w cs : List Char} (hw : w ∈ L)
    (hcs : cs ∈ KStar.kstar L) : w ++ cs ∈ KStar.kstar L := by
  obtain ⟨ws, rfl, hws⟩ := Language.mem_kstar.mp hcs
  refine Language.mem_kstar.mpr ⟨w :: ws, rfl, ?_⟩
  rw [List.forall_mem_cons]
  exact ⟨hw, hws⟩

theorem mem_kstar_iff_quotable {cs : List Char} :
    cs ∈ KStar.kstar (plainCharacter + escapedPair) ↔ Quotable cs := by
  constructor
  · intro h
    obtain ⟨ws, rfl, hws⟩ := Language.mem_kstar.mp h
    clear h
    induction ws with
    | nil => exact .nil
    | cons w ws ih =>
      rw [List.forall_mem_cons] at hws
      have hrest := ih hws.2
      rcases hws.1 with ⟨c, rfl, hquote, hslash⟩ | ⟨c, rfl, hfeed⟩
      · exact .char hquote hslash hrest
      · exact .pair hfeed hrest
  · intro h
    induction h with
    | nil => exact Language.nil_mem_kstar _
    | char hquote hslash _ ih => exact cons_mem_kstar (.inl ⟨_, rfl, hquote, hslash⟩) ih
    | pair hfeed _ ih => exact cons_mem_kstar (.inr ⟨_, rfl, hfeed⟩) ih

theorem mem_quotedPattern_iff {cs : List Char} :
    cs ∈ quotedPattern ↔ ∃ body, Quotable body ∧ cs = '"' :: (body ++ ['"']) := by
  simp only [quotedPattern, Language.mem_mul]
  constructor
  · rintro ⟨_, ⟨_, rfl, body, hbody, rfl⟩, _, rfl, rfl⟩
    exact ⟨body, mem_kstar_iff_quotable.mp hbody, rfl⟩
  · rintro ⟨body, hbody, rfl⟩
    exact ⟨_, ⟨_, rfl, body, mem_kstar_iff_quotable.mpr hbody, rfl⟩, _, rfl, rfl⟩

theorem eq_of_mem_quotedPattern {cs ds r s : List Char} (hcs : cs ∈ quotedPattern)
    (hds : ds ∈ quotedPattern) (h : cs ++ r = ds ++ s) : cs = ds := by
  obtain ⟨body, hbody, rfl⟩ := mem_quotedPattern_iff.mp hcs
  obtain ⟨other, hother, rfl⟩ := mem_quotedPattern_iff.mp hds
  have htail : body ++ '"' :: r = other ++ '"' :: s := by simpa using h
  have hreach := closing?_append hbody 0 r
  rw [htail, closing?_append hother 0 s] at hreach
  have hlength : body.length = other.length := by
    have := Option.some.inj hreach
    omega
  rw [(List.append_inj htail hlength).1]

theorem encode_mem_quotedPattern (cs : List Char) : encode cs ∈ quotedPattern :=
  mem_quotedPattern_iff.mpr ⟨_, quotable_flatMap_escape cs, rfl⟩

/-- **The written string is the match.** In front of any text, the string that is written for some
characters is all that matches the pattern and all that the reader takes, and it stands for these
characters. -/
theorem quotedPattern_encode (cs r : List Char) :
    (∀ front, front ∈ quotedPattern ∧ front <+: encode cs ++ r ↔ front = encode cs) ∧
      Lexeme.split (encode cs ++ r) =
        (⟨.quoted, encode cs⟩ :: (Lexeme.split r).1, (Lexeme.split r).2) ∧
      decode (encode cs) = cs := by
  refine ⟨fun front => ⟨?_, ?_⟩, ?_, decode_encode cs⟩
  · rintro ⟨hfront, s, hs⟩
    exact eq_of_mem_quotedPattern hfront (encode_mem_quotedPattern cs) hs
  · rintro rfl
    exact ⟨encode_mem_quotedPattern cs, List.prefix_append _ _⟩
  · exact Lexeme.split_append (.quoted (quotable_flatMap_escape cs)) fun _ _ => rfl

end Concise
end StackForest
