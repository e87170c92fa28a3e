/-
# `MessageCatalog.Proofs.CommentBlocks` — the blocks of an extra comment

An extra comment is a text of blocks with a separator between them, and a
block is added to it only if it is not there yet.  Whether it is there is
asked of the text, so all depends on how the text is read again:

    blocks (known ++ separator ++ added)  =  blocks known ++ blocks added

That is right unless `known` ends in the separator without its last
character (`CutsSeparator`).  Then the separator behind it is found one
character early, and the last block of `known` and the added one are not
read as they were.  Nothing else of a separator overlaps with another one.

A text with the separator in it is no block of any text.  It is never found
again, and so it is added as often as it comes.
-/
import Mathlib.Data.List.Infix
import MessageCatalog.Catalog.Merge

namespace MessageCatalog

/-! ## Blocks of a text -/

section

variable {separator : List Char}

theorem blocksFrom_cons {c : Char} {rest block : List Char} (h : ¬ separator <+: c :: rest) :
    blocksFrom separator block (c :: rest) = blocksFrom separator (c :: block) rest := by
  rw [blocksFrom, if_neg (mt List.isPrefixOf_iff_prefix.mp h)]

theorem blocksFrom_separator (hseparator : separator ≠ []) (rest block : List Char) :
    blocksFrom separator block (separator ++ rest)
      = block.reverse :: blocksFrom separator [] rest := by
  cases separator with
  | nil => exact absurd rfl hseparator
  | cons c separator =>
      have hhere : (c :: separator).isPrefixOf (c :: (separator ++ rest)) = true :=
        List.isPrefixOf_iff_prefix.mpr (List.prefix_append (c :: separator) rest)
      rw [List.cons_append, blocksFrom, if_pos hhere, List.length_cons, Nat.add_sub_cancel,
        List.drop_left]

/-- A text without the separator is a single block. -/
theorem blocksFrom_of_not_infix {text : List Char} (h : ¬ separator <:+: text) :
    ∀ block, blocksFrom separator block text = [block.reverse ++ text] := by
  induction text with
  | nil =>
      intro block
      rw [blocksFrom, List.append_nil]
  | cons c rest ih =>
      intro block
      have hrest : ¬ separator <:+: rest :=
        fun hinside => h (hinside.trans (List.suffix_cons c rest).isInfix)
      rw [blocksFrom_cons fun hbegins => h hbegins.isInfix, ih hrest, List.reverse_cons,
        List.append_assoc, List.singleton_append]

/-- No separator begins in what was read, whether or not it would end
there. -/
def NoneBegins (separator read rest : List Char) : Prop :=
  ∀ tail, tail <:+ read → tail ≠ [] → ¬ separator <+: tail ++ rest

theorem NoneBegins.nil (rest : List Char) : NoneBegins separator [] rest :=
  fun _ htail hne => absurd (List.suffix_nil.mp htail) hne

theorem NoneBegins.concat {read rest : List Char} {c : Char}
    (h : NoneBegins separator read (c :: rest)) (hhere : ¬ separator <+: c :: rest) :
    NoneBegins separator (read ++ [c]) rest := by
  intro tail htail hne
  rcases List.suffix_concat_iff.mp htail with hnil | ⟨front, rfl, hfront⟩
  · exact absurd hnil hne
  · rw [List.append_assoc, List.singleton_append]
    by_cases hempty : front = []
    · rwa [hempty]
    · exact h front hfront hempty

theorem NoneBegins.not_infix (hseparator : separator ≠ []) {read rest : List Char}
    (h : NoneBegins separator read rest) : ¬ separator <:+: read := by
  intro hinside
  obtain ⟨tail, hbegins, hsuffix⟩ := List.infix_iff_prefix_suffix.mp hinside
  refine h tail hsuffix ?_ (hbegins.trans (List.prefix_append tail rest))
  rintro rfl
  exact hseparator (List.prefix_nil.mp hbegins)

/-- No block has the separator in it. -/
theorem not_infix_of_mem_blocksFrom (hseparator : separator ≠ []) (block text : List Char)
    (hread : NoneBegins separator block.reverse text) :
    ∀ b ∈ blocksFrom separator block text, ¬ separator <:+: b := by
  fun_induction blocksFrom separator block text with
  | case1 block =>
      intro b hb
      rw [List.mem_singleton.mp hb]
      exact hread.not_infix hseparator
  | case2 block c rest hhere ih =>
      intro b hb
      rcases List.mem_cons.mp hb with rfl | hb
      · exact hread.not_infix hseparator
      · exact ih (.nil _) b hb
  | case3 block c rest hhere ih =>
      refine ih ?_
      rw [List.reverse_cons]
      exact hread.concat fun hbegins => hhere (List.isPrefixOf_iff_prefix.mpr hbegins)

end

/-! ## Blocks behind each other -/

theorem commentSeparator_ne_nil : commentSeparator.toList ≠ [] := List.cons_ne_nil _ _

/-- Two separators share nothing, or one character, or all. -/
theorem overlap_of_commentSeparator {front rest : List Char}
    (h : commentSeparator.toList = front ++ rest) (hfront : front ≠ []) (hrest : rest ≠ [])
    (hagain : rest <+: commentSeparator.toList) : front = commentSeparator.toList.dropLast := by
  have hshift : ∀ n < 12, 0 < n → commentSeparator.toList.drop n <+: commentSeparator.toList →
      commentSeparator.toList.take n = commentSeparator.toList.dropLast := by
    decide
  have hlength := congrArg List.length h
  rw [List.length_append, show commentSeparator.toList.length = 12 from rfl] at hlength
  have hpositive := List.length_pos_iff.mpr hfront
  have hshorter := List.length_pos_iff.mpr hrest
  have htake : commentSeparator.toList.take front.length = front := by rw [h, List.take_left]
  have hdrop : commentSeparator.toList.drop front.length = rest := by rw [h, List.drop_left]
  rw [← htake]
  exact hshift front.length (by omega) hpositive (by rwa [hdrop])

/-- The text ends in a separator that lacks its last character. -/
def CutsSeparator (text : List Char) : Prop := commentSeparator.toList.dropLast <:+ text

/-- In front of a separator no other one begins that would end in it. -/
theorem prefix_of_not_cutsSeparator {text added : List Char} (htext : text ≠ [])
    (h : ¬ CutsSeparator text)
    (hbegins : commentSeparator.toList <+: text ++ (commentSeparator.toList ++ added)) :
    commentSeparator.toList <+: text := by
  obtain ⟨behind, heq⟩ := hbegins
  rcases List.append_eq_append_iff.mp heq with ⟨rest, htext', -⟩ | ⟨rest, hsplit, hrest⟩
  · exact ⟨rest, htext'.symm⟩
  · by_cases hempty : rest = []
    · rw [hsplit, hempty, List.append_nil]
    · refine absurd ?_ h
      have hshorter : rest.length ≤ commentSeparator.toList.length := by
        rw [hsplit, List.length_append]
        exact Nat.le_add_left _ _
      have hagain : rest <+: commentSeparator.toList :=
        List.prefix_of_prefix_length_le ⟨behind, hrest.symm⟩ (List.prefix_append _ _) hshorter
      have hcut := overlap_of_commentSeparator hsplit htext hempty hagain
      rw [CutsSeparator, ← hcut]

theorem CutsSeparator.of_suffix {text behind : List Char} (h : CutsSeparator behind)
    (hsuffix : behind <:+ text) : CutsSeparator text :=
  h.trans hsuffix

/-- The blocks of a text with a separator and another text behind it. -/
theorem blocksFrom_append {known : List Char} (h : ¬ CutsSeparator known) (added : List Char)
    (block : List Char) :
    blocksFrom commentSeparator.toList block (known ++ (commentSeparator.toList ++ added))
      = blocksFrom commentSeparator.toList block known
        ++ blocksFrom commentSeparator.toList [] added := by
  by_cases hfirst : commentSeparator.toList <+: known
  · obtain ⟨rest, hknown⟩ := hfirst
    have hshorter : rest.length < known.length := by
      rw [← hknown, List.length_append]
      exact Nat.lt_add_of_pos_left (List.length_pos_iff.mpr commentSeparator_ne_nil)
    have hrest : ¬ CutsSeparator rest := fun hcuts => h (hcuts.of_suffix ⟨_, hknown⟩)
    rw [← hknown, List.append_assoc, blocksFrom_separator commentSeparator_ne_nil,
      blocksFrom_separator commentSeparator_ne_nil, blocksFrom_append hrest, List.cons_append]
  · cases known with
    | nil =>
        rw [List.nil_append, blocksFrom_separator commentSeparator_ne_nil, blocksFrom]
        rfl
    | cons c rest =>
        have hrest : ¬ CutsSeparator rest := fun hcuts => h (hcuts.of_suffix (List.suffix_cons _ _))
        have hlonger : ¬ commentSeparator.toList <+: c :: (rest ++ (commentSeparator.toList ++ added)) :=
          fun hbegins => hfirst (prefix_of_not_cutsSeparator (List.cons_ne_nil _ _) h hbegins)
        rw [List.cons_append, blocksFrom_cons hlonger, blocksFrom_cons hfirst,
          blocksFrom_append hrest]
termination_by known.length

/-! ## Extra comments -/

theorem mem_blocks {block text : String} :
    block ∈ blocks commentSeparator text
      ↔ block.toList ∈ blocksFrom commentSeparator.toList [] text.toList := by
  rw [blocks, List.mem_map]
  constructor
  · rintro ⟨characters, hmem, rfl⟩
    rwa [String.toList_ofList]
  · exact fun hmem => ⟨_, hmem, String.ofList_toList⟩

namespace Entry

/-- The text is more than one block. -/
def HasSeparator (text : String) : Prop := commentSeparator.toList <:+: text.toList

/-- A text of several blocks is itself no block. -/
theorem not_hasSeparator_of_mem_blocks {block text : String}
    (h : block ∈ blocks commentSeparator text) : ¬ HasSeparator block :=
  not_infix_of_mem_blocksFrom commentSeparator_ne_nil [] text.toList (.nil _) _ (mem_blocks.mp h)

theorem mem_blocks_self {text : String} (h : ¬ HasSeparator text) :
    text ∈ blocks commentSeparator text := by
  rw [mem_blocks, blocksFrom_of_not_infix h]
  exact List.mem_singleton.mpr rfl

/-- Nothing is added if there is nothing to add, or if it is a block that is
known. -/
theorem joinedComment_of_known {known added : String}
    (h : added = "" ∨ added ∈ blocks commentSeparator known) :
    joinedComment known added = known := by
  unfold joinedComment
  rcases h with hempty | hmem
  · rw [if_pos (String.isEmpty_iff.mpr hempty)]
  · split
    · rfl
    · next hadded =>
      have hknown : ¬ known.isEmpty = true := by
        intro hempty
        rw [String.isEmpty_iff.mp hempty, mem_blocks, String.toList_empty, blocksFrom,
          List.reverse_nil, List.mem_singleton, String.toList_eq_nil_iff] at hmem
        exact hadded (String.isEmpty_iff.mpr hmem)
      rw [if_neg hknown, if_pos (List.contains_iff_mem.mpr hmem)]

/-- Anything else is added, to nothing or behind a separator. -/
theorem joinedComment_of_new {known added : String} (hadded : added ≠ "")
    (hnew : added ∉ blocks commentSeparator known) :
    joinedComment known added = added ∧ known = ""
      ∨ joinedComment known added = known ++ commentSeparator ++ added := by
  unfold joinedComment
  rw [if_neg (mt String.isEmpty_iff.mp hadded)]
  split
  · next hempty => exact .inl ⟨rfl, String.isEmpty_iff.mp hempty⟩
  · rw [if_neg (mt List.contains_iff_mem.mp hnew)]
    exact .inr rfl

theorem joinedComment_eq_self_iff {known added : String} :
    joinedComment known added = known
      ↔ added = "" ∨ added ∈ blocks commentSeparator known := by
  refine ⟨fun hsame => ?_, joinedComment_of_known⟩
  by_contra hother
  obtain ⟨hadded, hnew⟩ := not_or.mp hother
  rcases joinedComment_of_new hadded hnew with ⟨hjoined, hknown⟩ | hjoined
  · exact hadded (hjoined.symm.trans (hsame.trans hknown))
  · have hlength := congrArg String.length (hjoined.symm.trans hsame)
    rw [String.length_append, String.length_append] at hlength
    have hpositive : 0 < commentSeparator.length := by decide
    omega

/-- Once it was added, a single block is known. -/
theorem mem_blocks_joinedComment_iff {known added : String}
    (hknown : ¬ CutsSeparator known.toList) (hadded : added ≠ "") :
    added ∈ blocks commentSeparator (joinedComment known added) ↔ ¬ HasSeparator added := by
  refine ⟨not_hasSeparator_of_mem_blocks, fun hsingle => ?_⟩
  by_cases hmem : added ∈ blocks commentSeparator known
  · rwa [joinedComment_of_known (.inr hmem)]
  · rcases joinedComment_of_new hadded hmem with ⟨hjoined, -⟩ | hjoined
    · rw [hjoined]
      exact mem_blocks_self hsingle
    · rw [hjoined, mem_blocks, String.append_assoc, String.toList_append, String.toList_append,
        blocksFrom_append hknown]
      exact List.mem_append_right _ (mem_blocks.mp (mem_blocks_self hsingle))

end Entry

end MessageCatalog
