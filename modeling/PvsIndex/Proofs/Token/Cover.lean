import Mathlib.Data.List.Chain
import PvsIndex.Proofs.Token.Scan

/-! The tokens of a text, put together, are the text. -/

namespace PvsIndex

namespace Token

/-- One token right after another. -/
def Meets (t u : Token) : Prop :=
  t.startIndex + t.length = u.startIndex

/-- The token shows what stands at its place in the source; at its end, that is nothing. -/
structure Shows (source : List Char) (t : Token) : Prop where
  text : t.text.toList = (source.drop t.startIndex).take t.length
  stop_le : t.startIndex + t.length ≤ source.length
  range : t.range = ⟨.ofIndex source t.startIndex, .ofIndex source (t.startIndex + t.length)⟩

variable {source : List Char} {t u : Token} {ts : List Token}

theorem Fits.shows (h : t.Fits source) : t.Shows source :=
  ⟨h.text, h.stop_le, h.range⟩

/-- Tokens that meet show what stands from the first to the last. -/
theorem flatMap_text (hs : ∀ t ∈ ts, t.Shows source) (hm : ts.IsChain Meets)
    (hf : ts.head? = some t) (hl : ts.getLast? = some u) :
    t.startIndex ≤ u.startIndex + u.length ∧ ts.flatMap (·.text.toList) =
      (source.drop t.startIndex).take (u.startIndex + u.length - t.startIndex) := by
  induction ts generalizing t with
  | nil => cases hf
  | cons t' ts ih =>
    obtain rfl : t' = t := Option.some.inj hf
    obtain ⟨ht, hrest⟩ := List.forall_mem_cons.mp hs
    rw [List.flatMap_cons, ht.text]
    cases ts with
    | nil =>
      obtain rfl : t' = u := Option.some.inj hl
      simp
    | cons v ts =>
      obtain ⟨hmeet, hm⟩ := List.isChain_cons_cons.mp hm
      obtain ⟨hle, htext⟩ := ih hrest hm rfl hl
      have hsum : u.startIndex + u.length - t'.startIndex =
          t'.length + (u.startIndex + u.length - v.startIndex) := by
        unfold Meets at hmeet
        omega
      refine ⟨by unfold Meets at hmeet; omega, ?_⟩
      rw [htext, hsum, List.take_add, List.drop_drop, hmeet]

end Token

namespace Tokens

variable {source : List Char}

theorem endToken_shows (source : List Char) : (endToken source).Shows source := by
  constructor <;> simp [endToken, Token.length]

theorem scanFrom_isChain (n : Nat) {i : Nat} (hi : i + n = source.length) :
    let ts := (scanFrom (.ofIndex source i) i (source.drop i)).toList
    (∃ t ∈ ts.head?, t.startIndex = i) ∧ ts.IsChain Token.Meets := by
  induction n using Nat.strong_induction_on generalizing i with
  | _ n ih =>
  cases h : source.drop i with
  | nil =>
    rw [scanFrom]
    exact ⟨⟨_, rfl, rfl⟩, .singleton _⟩
  | cons c cs =>
    rw [← h, scanFrom_cons h]
    have hpos := (tokenAt_fits h).length_pos
    have hle := stop_tokenAt h
    obtain ⟨⟨u, hu, hstart⟩, hchain⟩ := ih
      (source.length - (i + (tokenAt source i c cs).length)) (by omega)
      (i := i + (tokenAt source i c cs).length) (by omega)
    refine ⟨⟨_, rfl, rfl⟩, List.isChain_cons.mpr ⟨fun v hv => ?_, hchain⟩⟩
    obtain rfl := Option.mem_unique hu hv
    exact hstart.symm

variable (text : String)

theorem toList_isChain : (∃ t ∈ (ofText text).toList.head?, t.startIndex = 0) ∧
    (ofText text).toList.IsChain Token.Meets :=
  @scanFrom_isChain text.toList _ 0 (Nat.zero_add _)

theorem toList_pairwise : (ofText text).toList.Pairwise Token.Before := by
  obtain ⟨hfits, hbefore, hend⟩ := ofText_spec text
  refine List.pairwise_append.mpr ⟨hbefore, List.pairwise_singleton _ _, fun t ht u hu => ?_⟩
  rw [List.mem_singleton.mp hu, hend]
  exact (hfits t ht).stop_le

variable {text}

theorem shows_of_mem {t : Token} (h : t ∈ (ofText text).toList) : t.Shows text.toList := by
  rcases List.mem_append.mp h with h | h
  · exact ((ofText_spec text).1 t h).shows
  · rw [List.mem_singleton.mp h, (ofText_spec text).2.2]
    exact endToken_shows _

/-- The tokens from one to another show what stands between their ends. -/
theorem flatMap_text_slice {i j : Nat} {t u : Token} (ht : (ofText text).toList[i]? = some t)
    (hu : (ofText text).toList[j]? = some u) (hle : i ≤ j) :
    t.startIndex ≤ u.startIndex + u.length ∧
      (((ofText text).toList.drop i).take (j + 1 - i)).flatMap (·.text.toList) =
        (text.toList.drop t.startIndex).take (u.startIndex + u.length - t.startIndex) := by
  have hpart : ((ofText text).toList.drop i).take (j + 1 - i) <:+: (ofText text).toList :=
    (List.take_prefix _ _).isInfix.trans (List.drop_suffix _ _).isInfix
  have hj : j < (ofText text).toList.length := (List.getElem?_eq_some_iff.mp hu).1
  refine Token.flatMap_text (fun v hv => shows_of_mem (hpart.subset hv))
    (((toList_isChain text).2.drop i).take _) ?_ ?_
  · rw [List.head?_take, if_neg (by omega), List.head?_drop, ht]
  · rw [List.getLast?_take, if_neg (by omega), List.getElem?_drop,
      show i + (j + 1 - i - 1) = j by omega, hu, Option.some_or]

end Tokens

end PvsIndex
