import PvsIndex.Proofs.Checked.Scanning
import PvsIndex.Proofs.Token.Words

/-! The tokens lose nothing of a text, and each of them knows exactly where it stands. -/

namespace PvsIndex

def Token.joined (ts : List Token) : String :=
  String.join (ts.map (·.text))

/-- The token stands right after the tokens before it, by its indices and by its range. -/
structure Token.Follows (before : List Token) (t : Token) : Prop where
  startIndex : t.startIndex = (joined before).length
  stopIndex : t.stopIndex = (joined before).length + t.text.length - 1
  range : t.range = ⟨.start + .ofText (joined before), .start + .ofText (joined (before ++ [t]))⟩

/-- The tokens cut the text into pieces, with an empty one at the end only. -/
structure Tokens.Exact (text : String) (ts : List Token) : Prop where
  joined : Token.joined ts = text
  last : ∃ lexemes eof, ts = lexemes ++ [eof] ∧ eof.kind = .eof ∧ eof.text = "" ∧
    ∀ t ∈ lexemes, t.kind ≠ .eof ∧ t.text ≠ ""
  follows : ∀ before t after, ts = before ++ t :: after → t.Follows before
  meets : ts.IsChain fun t u => t.range.stop = u.range.start
  grows : ts.Pairwise fun t u => t.startIndex < u.startIndex ∧ t.range.start < u.range.start
  oneLine : ∀ t ∈ ts, t.kind.isWord = true → '\n' ∉ t.text.toList

namespace Token

variable {source : List Char} {t u : Token}

theorem toList_joined (ts : List Token) : (joined ts).toList = ts.flatMap (·.text.toList) := by
  rw [joined, String.toList_join, List.flatMap_map]

theorem Meets.range (h : t.Meets u) (ht : t.Shows source) (hu : u.Shows source) :
    t.range.stop = u.range.start := by
  rw [ht.range, hu.range, h]

end Token

namespace Tokens

variable {text : String} {before after : List Token} {t : Token}

theorem toList_joined_before (h : (ofText text).toList = before ++ t :: after) :
    (Token.joined before).toList = text.toList.take t.startIndex := by
  obtain ⟨⟨u, hu, hzero⟩, hchain⟩ := toList_isChain text
  rw [h] at hu hchain
  rw [Token.toList_joined]
  rcases List.eq_nil_or_concat' before with rfl | ⟨front, v, rfl⟩
  · obtain rfl : t = u := Option.some.inj hu
    rw [hzero, List.take_zero]
    rfl
  · have hshows : ∀ w ∈ front ++ [v], w.Shows text.toList := fun w hw =>
      shows_of_mem (h ▸ List.mem_append_left _ hw)
    have hhead : (front ++ [v]).head? = some u := by
      rw [List.head?_append] at hu ⊢
      cases hf : front.head? <;> simp_all
    have hmeets : v.Meets t := by
      rw [List.append_assoc] at hchain
      exact (List.isChain_cons_cons.mp (List.isChain_append.mp hchain).2.1).1
    obtain ⟨-, hjoined⟩ := Token.flatMap_text hshows (List.isChain_append.mp hchain).1 hhead
      List.getLast?_concat
    rw [hjoined, hmeets, hzero, List.drop_zero, Nat.sub_zero]

theorem follows_of_split (h : (ofText text).toList = before ++ t :: after) : t.Follows before := by
  have ht : t.Shows text.toList := shows_of_mem (h ▸ List.mem_append_right _ List.mem_cons_self)
  have hbefore := toList_joined_before h
  have hsplit : (Token.joined (before ++ [t])).toList =
      text.toList.take (t.startIndex + t.length) := by
    rw [Token.toList_joined, List.flatMap_append, ← Token.toList_joined, hbefore,
      List.flatMap_singleton, ht.text, ← List.take_add]
  have hindex : t.startIndex = (Token.joined before).length := by
    have hle := ht.stop_le
    rw [← String.length_toList, hbefore, List.length_take]
    omega
  refine ⟨hindex, ?_, ?_⟩
  · rw [Token.stopIndex, Token.length, String.length_toList, hindex]
  · rw [ht.range, Position.ofText, Position.ofText, hbefore, hsplit]
    rfl

theorem toList_grows : (ofText text).toList.Pairwise fun t u =>
    t.startIndex < u.startIndex ∧ t.range.start < u.range.start := by
  obtain ⟨hfits, hbefore, hend⟩ := ofText_spec text
  have hstep : ∀ t ∈ (ofText text).lexemes, ∀ u ∈ (ofText text).toList, t.Before u →
      t.startIndex < u.startIndex ∧ t.range.start < u.range.start := by
    intro t ht u hu hbefore
    have hpos := (hfits t ht).length_pos
    have hstop := (shows_of_mem hu).stop_le
    have hlt : t.startIndex < u.startIndex := by
      unfold Token.Before at hbefore
      omega
    rw [(hfits t ht).range, (shows_of_mem hu).range]
    exact ⟨hlt, Position.ofIndex_lt hlt (by omega)⟩
  refine List.pairwise_append.mpr ⟨?_, List.pairwise_singleton _ _, ?_⟩
  · exact hbefore.imp_of_mem fun ht hu => hstep _ ht _ (List.mem_append_left _ hu)
  · intro t ht u hu
    have hu' : u ∈ (ofText text).toList := List.mem_append_right _ hu
    refine hstep t ht u hu' ?_
    rw [List.mem_singleton.mp hu, hend]
    exact (hfits t ht).stop_le

variable (text)

theorem joined_toList : Token.joined (ofText text).toList = text := by
  have hend := (ofText_spec text).2.2
  have hfront := @toList_joined_before text (ofText text).lexemes [] (ofText text).endOfText rfl
  rw [← String.toList_inj, Token.toList_joined, toList, List.flatMap_append, ← Token.toList_joined,
    hfront, hend]
  simp [endToken]

theorem ofText_exact : Exact text (ofText text).toList where
  joined := joined_toList text
  last := by
    obtain ⟨hfits, -, hend⟩ := ofText_spec text
    refine ⟨_, _, rfl, ?_, ?_, fun t ht => ⟨(hfits t ht).kind_ne, (hfits t ht).text_ne⟩⟩
    · rw [hend]
      rfl
    · rw [hend]
      rfl
  follows _ _ _ := follows_of_split
  meets := (toList_isChain text).2.imp_of_mem_imp fun _ _ ht hu hmeets =>
    hmeets.range (shows_of_mem ht) (shows_of_mem hu)
  grows := toList_grows
  oneLine _ := oneLine_of_word

end Tokens

/-- Every text is split without a breach, into tokens that cut it exactly. -/
theorem Checked.tokenize_exact (text : String) :
    ∃ ts, tokenize text = pure ts ∧ Tokens.Exact text ts :=
  ⟨_, tokenize_eq text, Tokens.ofText_exact text⟩

end PvsIndex
