import Stencil.Proofs.Item.Behind
import Stencil.Proofs.Item.Leftmost

/-! Scanning two texts as one.
A text that ends with a tag or a closed comment cuts nothing short that it holds. The main statement
says that such a text, if nothing is wrong with it, and any other one joined have the items of the
first and then, moved, those of the second. -/
namespace Stencil

section Sealed

variable {tags : TagSet} {c : Char} {source text : List Char} {offset : Nat}

namespace CommentReading

theorem read_before {stop : Nat} {rest : List Char}
    (h : read tags source text offset = .closed stop rest) (source' more : List Char) :
    read tags source' (text ++ more) offset = .closed stop (rest ++ more) := by
  rw [read_eq] at h ⊢
  cases ha : Text.after? tags.commentOpening.toList text with
  | none =>
    rw [ha] at h
    cases h
  | some body =>
    have hlen : tags.commentOpening.toList.length ≤ text.length := by
      rw [Text.after?_eq_some_iff.mp ha, List.length_append]
      omega
    rw [Text.after?_append_of_length hlen, ha]
    simp only [ha, Option.map_some] at h ⊢
    cases hc : Text.cut? tags.commentClosing.toList body with
    | none =>
      rw [hc] at h
      cases h
    | some p =>
      simp only [hc] at h
      rw [Text.cut?_append (b := p.2) hc]
      cases h
      rfl

theorem read_of_unclosedComment? (h : unclosedComment? tags source text offset = Option.none) :
    read tags source text offset = .none := by
  have ha : Text.after? tags.commentOpening.toList text = Option.none :=
    Option.map_eq_none_iff.mp h
  rw [read_eq, ha]

theorem unclosedComment?_before (hs : tags.SealedBy c) (hc : c ∈ text)
    (h : unclosedComment? tags source text offset = Option.none) (source' more : List Char) :
    unclosedComment? tags source' (text ++ more) offset = Option.none := by
  have ha : Text.after? tags.commentOpening.toList text = Option.none :=
    Option.map_eq_none_iff.mp h
  rw [unclosedComment?, Text.after?_append_of_mem hc hs.commentOpening, ha]
  rfl

theorem read_of_isComment (hv : tags.emptyEntry? = Option.none) {comment rest : List Char}
    (h : IsComment tags comment rest) :
    read tags source (comment ++ rest) offset = .closed (offset + Text.size comment) rest := by
  have hd := describes_read hv source (comment ++ rest) offset
  cases hr : read tags source (comment ++ rest) offset with
  | none =>
    rw [hr] at hd
    exact absurd h.terminated hd.2
  | endless f =>
    rw [hr] at hd
    exact absurd h.terminated (hd.2.2 _ List.suffix_rfl)
  | closed stop left =>
    rw [hr] at hd
    obtain ⟨other, hother, -, heq, rfl⟩ := hd
    obtain ⟨rfl, rfl⟩ := h.unique hother heq
    rfl

end CommentReading

namespace Item

variable {run : Nat}

theorem mem_flush {start stop : Nat} {items : List Item} {item : Item} :
    item ∈ flush start stop items ↔ start < stop ∧ item = .text ⟨start, stop⟩ ∨ item ∈ items := by
  unfold flush
  split <;> simp [*]

theorem flush_append (start stop : Nat) (items more : List Item) :
    flush start stop (items ++ more) = flush start stop items ++ more := by
  unfold flush
  split <;> rfl

theorem scanFrom_closed (hv : tags.emptyEntry? = none) {stop : Nat} {rest : List Char}
    (h : CommentReading.read tags source text offset = .closed stop rest) :
    scanFrom tags source text offset run true =
      flush run offset (scanFrom tags source rest stop stop true) := by
  have hlt := CommentReading.length_lt_of_read hv h
  have hne : text ≠ [] := List.length_pos_iff.mp (Nat.lt_of_le_of_lt (Nat.zero_le _) hlt)
  rw [scanFrom_eq, if_neg hne, if_pos rfl, h]
  exact if_pos hlt

theorem scanFrom_none (h : unclosedComment? tags source text offset = none) (hne : text ≠ []) :
    scanFrom tags source text offset run true = scanHere tags source text offset run true := by
  rw [scanFrom_eq, if_neg hne, if_pos rfl, CommentReading.read_of_unclosedComment? h]

theorem scanFrom_tag (hv : tags.emptyEntry? = none) {t : Tag} {rest : List Char}
    (hc : unclosedComment? tags source text offset = none)
    (h : Tag.read tags source text offset = .tag t rest) :
    scanFrom tags source text offset run true =
      flush run offset (.tag t :: scanFrom tags source rest t.span.stop t.span.stop true) := by
  have hlt := Tag.length_lt_of_read hv h
  rw [scanFrom_none hc (List.length_pos_iff.mp (Nat.lt_of_le_of_lt (Nat.zero_le _) hlt))]
  match text with
  | [] => exact absurd hlt (Nat.not_lt_zero _)
  | d :: left =>
    rw [scanHere_cons, h]
    exact if_pos (Nat.le_of_lt_succ hlt)

theorem scanFrom_char {d : Char}
    (hc : unclosedComment? tags source (d :: text) offset = none)
    (h : Tag.read tags source (d :: text) offset = .none) :
    scanFrom tags source (d :: text) offset run true =
      scanFrom tags source text (offset + d.utf8Size) run true := by
  rw [scanFrom_none hc (List.cons_ne_nil _ _), scanHere_cons, h]

end Item

theorem TagReading.eq_none_of_fault? {r : TagReading} (hf : r.fault? = Option.none)
    (ht : ∀ t rest, r ≠ .tag t rest) : r = .none := by
  cases r with
  | none => rfl
  | faulty f => cases hf
  | tag t rest => exact absurd rfl (ht t rest)

def Piece.isClosed : Piece → Bool
  | .char .. => false
  | _ => true

namespace Leftmost

variable {pieces : List Piece}

theorem isClosed_of_cons {piece : Piece}
    (h : ∀ p ∈ (piece :: pieces).getLast?, p.isClosed = true) :
    ∀ p ∈ pieces.getLast?, p.isClosed = true :=
  fun p hp => h p (by rw [List.getLast?_cons, Option.mem_def.mp hp]; rfl)

/-- What is left of a source that ends with a tag or a comment is sealed. -/
theorem sealed (h : tags.SealedBy c) (hl : Leftmost tags source offset text pieces)
    (hne : pieces ≠ []) (hlast : ∀ p ∈ pieces.getLast?, p.isClosed = true) : c ∈ text := by
  induction hl with
  | done => exact absurd rfl hne
  | @comment offset comment rest pieces hc _ ih =>
    obtain ⟨body, rfl, -⟩ := hc
    simp [h.commentClosing]
  | @tag offset text rest t pieces _ hr _ ih =>
    obtain ⟨covered, rfl, hc⟩ := Tag.mem_of_read h hr
    exact List.mem_append_left _ hc
  | @char offset d rest pieces _ _ _ ih =>
    cases pieces with
    | nil => cases hlast _ rfl
    | cons piece pieces =>
      exact List.mem_cons_of_mem _ (ih (List.cons_ne_nil _ _) (isClosed_of_cons hlast))

/-- A sealed source without faults is scanned alike where more text follows, and scanning begins
anew behind it. -/
theorem scanFrom_before (hv : tags.emptyEntry? = none) (h : tags.SealedBy c)
    (hl : Leftmost tags source offset text pieces) (start : List Char)
    (hs : source = start ++ text) (ho : offset = Text.size start)
    (hclean : ∀ p ∈ pieces, p.unclosed? = none ∧ p.fault? = none)
    (hlast : ∀ p ∈ pieces.getLast?, p.isClosed = true) {run : Nat}
    (hrun : pieces = [] → run = offset) (more : List Char) :
    Item.scanFrom tags (source ++ more) (text ++ more) offset run true =
      Item.scanFrom tags source text offset run true ++
        Item.scanFrom tags (source ++ more) more (Text.size source) (Text.size source) true := by
  -- the last piece is still ahead at each place, so nothing that begins there can be cut short
  induction hl generalizing start run with
  | @done offset =>
    obtain rfl := hrun rfl
    have hitems : Item.scanFrom tags source [] run run true = [] := by
      rw [Item.scanFrom_eq]
      simp [Item.flush]
    rw [hitems, ho, hs, List.append_nil]
    rfl
  | @comment offset comment rest pieces hc _ ih =>
    have hread : CommentReading.read tags source (comment ++ rest) offset = _ :=
      CommentReading.read_of_isComment hv hc
    have hnext := ih (start ++ comment) (by rw [hs, List.append_assoc])
      (by rw [ho, Text.size_append]) (List.forall_mem_cons.mp hclean).2 (isClosed_of_cons hlast)
      (fun _ => rfl)
    rw [Item.scanFrom_closed hv hread,
      Item.scanFrom_closed hv (CommentReading.read_before hread _ more), hnext, Item.flush_append]
  | @tag offset text rest t pieces hterminated hr tail ih =>
    have hsealed : c ∈ text := sealed h (.tag hterminated hr tail) (List.cons_ne_nil _ _) hlast
    obtain ⟨⟨hcomment, -⟩, hclean⟩ := List.forall_mem_cons.mp hclean
    have hcovers := Tag.covers_read hv source text offset
    rw [hr] at hcovers
    obtain ⟨covered, -, htext, hspan⟩ := hcovers
    have hread : Tag.read tags (source ++ more) (text ++ more) offset = .tag t (rest ++ more) := by
      rw [Tag.read_before h hsealed hs ho (by simp [hr]), hr]
      rfl
    have hnext := ih (start ++ covered) (by rw [hs, htext, List.append_assoc])
      (by rw [hspan, ho, Text.size_append]) hclean (isClosed_of_cons hlast) (fun _ => rfl)
    rw [Item.scanFrom_tag hv hcomment hr,
      Item.scanFrom_tag hv (CommentReading.unclosedComment?_before h hsealed hcomment _ more) hread,
      hnext, ← Item.flush_append, List.cons_append]
  | @char offset d rest pieces hterminated hr tail ih =>
    have hsealed : c ∈ d :: rest :=
      sealed h (.char hterminated hr tail) (List.cons_ne_nil _ _) hlast
    obtain ⟨⟨hcomment, hfault⟩, hclean⟩ := List.forall_mem_cons.mp hclean
    have hnone : Tag.read tags source (d :: rest) offset = .none :=
      TagReading.eq_none_of_fault? hfault hr
    have hread : Tag.read tags (source ++ more) (d :: (rest ++ more)) offset = .none := by
      have hbefore := Tag.read_before h hsealed hs ho (by simp [hnone]) more
      rw [hnone] at hbefore
      exact hbefore
    have hrest : pieces = [] → run = offset + d.utf8Size := by
      rintro rfl
      cases hlast _ rfl
    have hnext := ih (start ++ [d]) (by rw [hs, List.append_assoc]; rfl)
      (by rw [ho, Text.size_append]; rfl) hclean (isClosed_of_cons hlast) hrest
    have hmore : unclosedComment? tags (source ++ more) (d :: (rest ++ more)) offset = none :=
      CommentReading.unclosedComment?_before h hsealed hcomment _ more
    rw [Item.scanFrom_char hcomment hnone, List.cons_append, Item.scanFrom_char hmore hread, hnext]

end Leftmost

end Sealed

/-- Whether the source is empty or ends exactly where a tag or a closed comment ends. -/
def TagSet.EndsClosed (tags : TagSet) (source : String) : Prop :=
  ∃ pieces, Leftmost tags source.toList 0 source.toList pieces ∧
    ∀ p ∈ pieces.getLast?, p.isClosed = true

/-- Where a decomposition ends with a character, a run of text reaches the end. -/
theorem Leftmost.exists_text {tags : TagSet} (hv : tags.emptyEntry? = none)
    {source text : List Char} {offset : Nat} {pieces : List Piece}
    (hl : Leftmost tags source offset text pieces) {piece : Piece}
    (hp : piece ∈ pieces.getLast?) (hc : piece.isClosed = false) {run : Nat}
    (hrun : run ≤ offset) :
    ∃ span, .text span ∈ Piece.units run offset pieces ∧
      span.stop = offset + Text.size text := by
  induction hl generalizing run with
  | done => cases hp
  | @comment offset comment rest pieces _ _ ih =>
    cases pieces with
    | nil =>
      cases hp
      cases hc
    | cons next pieces =>
      obtain ⟨span, hm, hstop⟩ := ih hp (Nat.le_refl _)
      refine ⟨span, Item.mem_flush.mpr (.inr hm), ?_⟩
      rw [hstop, Text.size_append, Nat.add_assoc]
  | @tag offset text rest t pieces _ hr _ ih =>
    cases pieces with
    | nil =>
      cases hp
      cases hc
    | cons next pieces =>
      obtain ⟨span, hm, hstop⟩ := ih hp (Nat.le_refl _)
      have hcovers := Tag.covers_read hv source text offset
      rw [hr] at hcovers
      obtain ⟨covered, -, rfl, hspan⟩ := hcovers
      refine ⟨span, Item.mem_flush.mpr (.inr (List.mem_cons_of_mem _ hm)), ?_⟩
      rw [hstop, hspan, Text.size_append, Nat.add_assoc]
  | @char offset c rest pieces _ _ hmore ih =>
    have hpos := c.utf8Size_pos
    cases pieces with
    | nil =>
      cases hmore
      refine ⟨⟨run, offset + c.utf8Size⟩, ?_, rfl⟩
      exact Item.mem_flush.mpr (.inl ⟨by omega, rfl⟩)
    | cons next pieces =>
      obtain ⟨span, hm, hstop⟩ := ih hp (Nat.le_trans hrun (Nat.le_add_right _ _))
      exact ⟨span, hm, hstop.trans (Nat.add_assoc _ _ _)⟩

theorem TagSet.endsClosed_of_scan {tags : TagSet} (hv : tags.emptyEntry? = none)
    {source : String}
    (h : ∀ span, .text span ∈ Item.scan tags source → span.stop ≠ Text.size source.toList) :
    tags.EndsClosed source := by
  obtain ⟨pieces, hl, hagrees⟩ :=
    @exists_leftmost_scanFrom _ source.toList hv source.toList 0 0 true (by simp)
  refine ⟨pieces, hl, fun piece hp => ?_⟩
  cases hc : piece.isClosed with
  | true => rfl
  | false =>
    obtain ⟨span, hm, hstop⟩ := hl.exists_text hv hp hc (Nat.le_refl _)
    rw [← hagrees.units] at hm
    exact absurd (hstop.trans (Nat.zero_add _)) (h span (List.mem_filter.mp hm).1)

theorem Agrees.clean {run offset : Nat} {items : List Item} {pieces : List Piece}
    (h : Agrees run offset true items pieces) (hf : ∀ f, .finding f ∉ items) :
    ∀ p ∈ pieces, p.unclosed? = none ∧ p.fault? = none := by
  have hnone : items.filterMap Item.finding? = [] := by
    refine List.filterMap_eq_nil_iff.mpr fun item hm => ?_
    cases item with
    | finding f => exact absurd hm (hf f)
    | text span => rfl
    | tag t => rfl
  have hfaults := h.faults
  have hunclosed := h.unclosed
  rw [hnone] at hfaults hunclosed
  have hfirst : pieces.findSome? Piece.unclosed? = none := by
    cases hp : pieces.findSome? Piece.unclosed? with
    | none => rfl
    | some f =>
      rw [hp] at hunclosed
      cases hunclosed
  exact fun p hp => ⟨List.findSome?_eq_none_iff.mp hfirst p hp,
    List.filterMap_eq_nil_iff.mp hfaults.symm p hp⟩

/-- Two sources joined, the first without faults and with a tag or a comment at its end, have the
items of the first and the moved ones of the second. -/
theorem Item.scan_append {tags : TagSet} (hv : tags.emptyEntry? = none) {c : Char}
    (h : tags.SealedBy c) {a : String} (ha : tags.EndsClosed a)
    (hf : ∀ f, .finding f ∉ scan tags a) (b : String) :
    scan tags (a ++ b) = scan tags a ++ (scan tags b).map (Item.behind a.toList) := by
  obtain ⟨pieces, hl, hlast⟩ := ha
  obtain ⟨others, hothers, hagrees⟩ :=
    @exists_leftmost_scanFrom _ a.toList hv a.toList 0 0 true (by simp)
  obtain rfl := hl.unique hv hothers
  have hbefore := hl.scanFrom_before hv h [] rfl rfl (hagrees.clean hf) hlast
    (fun _ => rfl) b.toList
  have hbehind := scanFrom_behind tags a.toList b.toList b.toList 0 0 true
  rw [Nat.add_zero] at hbehind
  rw [scan_eq, scan_eq, scan_eq]
  rw [String.toList_append, hbefore, hbehind]

end Stencil
