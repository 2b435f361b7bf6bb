import Stencil.Text

/-! Tag sets: the delimiters and keywords by which tags and comments are recognised.
A keyword is matched longest first and without regard to the case of ASCII letters; the main
statement says that the order in which keywords are tried keeps all ten of them. -/
namespace Stencil

/-- The ten kinds of tags. The default keyword of each stands beside it. -/
inductive TagKind
  /-- VAR -/
  | var
  /-- INCLUDE -/
  | embed
  /-- IF -/
  | cond
  /-- ELSIF -/
  | elsif
  /-- ELSE -/
  | alt
  /-- ENDIF -/
  | endif
  /-- LOOP -/
  | loop
  /-- ENDLOOP -/
  | endloop
  /-- BREAK -/
  | leave
  /-- CONTINUE -/
  | next
  deriving DecidableEq, Repr

namespace TagKind

/-- Every kind, in the order that decides between keywords of one length. -/
def all : List TagKind :=
  [.var, .embed, .cond, .elsif, .alt, .endif, .loop, .endloop, .leave, .next]

/-- Tags that name something, so that a blank has to follow the keyword. -/
def requiresName : TagKind → Bool
  | .var | .embed | .cond | .elsif | .loop => true
  | _ => false

/-- Tags that open or close a body; a slash before their closing delimiter is an error. -/
def isContainer : TagKind → Bool
  | .cond | .endif | .loop | .endloop => true
  | _ => false

def isTerminator : TagKind → Bool
  | .elsif | .alt | .endif | .endloop => true
  | _ => false

end TagKind

structure Keywords where
  var : String := "VAR"
  embed : String := "INCLUDE"
  cond : String := "IF"
  elsif : String := "ELSIF"
  alt : String := "ELSE"
  endif : String := "ENDIF"
  loop : String := "LOOP"
  endloop : String := "ENDLOOP"
  leave : String := "BREAK"
  next : String := "CONTINUE"
  deriving DecidableEq, Repr

namespace Keywords

def spelling (k : Keywords) : TagKind → String
  | .var => k.var
  | .embed => k.embed
  | .cond => k.cond
  | .elsif => k.elsif
  | .alt => k.alt
  | .endif => k.endif
  | .loop => k.loop
  | .endloop => k.endloop
  | .leave => k.leave
  | .next => k.next

def respell (k : Keywords) (kind : TagKind) (text : String) : Keywords :=
  match kind with
  | .var => { k with var := text }
  | .embed => { k with embed := text }
  | .cond => { k with cond := text }
  | .elsif => { k with elsif := text }
  | .alt => { k with alt := text }
  | .endif => { k with endif := text }
  | .loop => { k with loop := text }
  | .endloop => { k with endloop := text }
  | .leave => { k with leave := text }
  | .next => { k with next := text }

theorem spelling_respell (k : Keywords) (kind other : TagKind) (text : String) :
    (k.respell kind text).spelling other = if other = kind then text else k.spelling other := by
  cases kind <;> cases other <;> rfl

end Keywords

/-- The texts that delimit tags and comments, and the keywords. -/
structure TagSet where
  opening : String := "\x7b\x7b"
  closing : String := "\x7d\x7d"
  commentOpening : String := "\x7b\x7b*"
  commentClosing : String := "*\x7d\x7d"
  /-- Opens a tag that stands inside a comment of the surrounding document. -/
  wrappedOpening : String := "\x7b\x7b!--"
  wrappedClosing : String := "--\x7d\x7d"
  /-- Stands for the keyword of a variable tag and needs no blank after it. -/
  shorthand : String := "="
  keywords : Keywords := {}
  deriving DecidableEq, Repr

namespace TagSet

def withDelimiters (t : TagSet) (opening closing : String) : TagSet :=
  { t with opening, closing }

def withComment (t : TagSet) (opening closing : String) : TagSet :=
  { t with commentOpening := opening, commentClosing := closing }

def withWrapped (t : TagSet) (opening closing : String) : TagSet :=
  { t with wrappedOpening := opening, wrappedClosing := closing }

def withShorthand (t : TagSet) (text : String) : TagSet := { t with shorthand := text }

def withKeyword (t : TagSet) (kind : TagKind) (text : String) : TagSet :=
  { t with keywords := t.keywords.respell kind text }

def keyword (t : TagSet) (kind : TagKind) : String := t.keywords.spelling kind

/-- The names of the entries in the order in which an empty one is looked for. -/
def entries (t : TagSet) : List (String × String) :=
  [("start", t.opening), ("end", t.closing), ("comment_start", t.commentOpening),
    ("comment_end", t.commentClosing), ("tag_comment_start", t.wrappedOpening),
    ("tag_comment_end", t.wrappedClosing), ("var_shorthand", t.shorthand)] ++
  TagKind.all.map fun kind => ("keyword", t.keyword kind)

/-- The first entry that is empty. A set without one is valid. -/
def emptyEntry? (t : TagSet) : Option String :=
  (t.entries.find? fun e => e.2.isEmpty).map fun e => e.1

def emptyMessage (field : String) : String := s!"tag set entry '{field}' must not be empty"

def insertLongest (e : TagKind × List Char) :
    List (TagKind × List Char) → List (TagKind × List Char)
  | [] => [e]
  | f :: r => if Text.size f.2 < Text.size e.2 then e :: f :: r else f :: insertLongest e r

/-- The keywords, longest first, those of one length in the order of `TagKind.all`. -/
def keywordsByLength (t : TagSet) : List (TagKind × List Char) :=
  (TagKind.all.map fun kind => (kind, (t.keyword kind).toList)).foldl
    (fun sorted e => insertLongest e sorted) []

theorem mem_insertLongest {e f : TagKind × List Char} {l : List (TagKind × List Char)} :
    f ∈ insertLongest e l ↔ f = e ∨ f ∈ l := by
  induction l with
  | nil => simp [insertLongest]
  | cons g r ih =>
    unfold insertLongest
    split
    · simp
    · simp [ih, or_left_comm]

/-- Sorting keeps every keyword. -/
theorem mem_keywordsByLength {t : TagSet} {e : TagKind × List Char} :
    e ∈ t.keywordsByLength ↔ e.2 = (t.keyword e.1).toList := by
  obtain ⟨kind, text⟩ := e
  simp only [keywordsByLength, TagKind.all, List.map_cons, List.map_nil, List.foldl_cons,
    List.foldl_nil, mem_insertLongest, List.not_mem_nil, or_false, Prod.mk.injEq]
  cases kind <;> simp

/-- What follows `word`, if the text begins with it up to the case of ASCII letters. -/
def afterFolded? : List Char → List Char → Option (List Char)
  | [], text => some text
  | _ :: _, [] => none
  | w :: word, c :: text => if w.toLower = c.toLower then afterFolded? word text else none

structure KeywordMatch where
  kind : TagKind
  shorthand : Bool
  rest : List Char
  deriving DecidableEq, Repr

/-- The longest keyword with which the text begins; failing that, the shorthand. -/
def matchKeyword? (t : TagSet) (text : List Char) : Option KeywordMatch :=
  let byKeyword := t.keywordsByLength.findSome? fun e =>
    (afterFolded? e.2 text).map fun rest => ⟨e.1, false, rest⟩
  match byKeyword with
  | some m => some m
  | none => (Text.after? t.shorthand.toList text).map fun rest => ⟨.var, true, rest⟩

theorem afterFolded?_eq_some_iff {word text rest : List Char} :
    afterFolded? word text = some rest ↔
      ∃ read, text = read ++ rest ∧ read.map Char.toLower = word.map Char.toLower := by
  induction word generalizing text with
  | nil => simp [afterFolded?]
  | cons w word ih =>
    cases text with
    | nil => simp [afterFolded?]
    | cons c text =>
      simp only [afterFolded?]
      constructor
      · intro h
        split at h
        · rename_i hc
          obtain ⟨read, rfl, hread⟩ := ih.mp h
          exact ⟨c :: read, rfl, by simp [hc, hread]⟩
        · cases h
      · rintro ⟨read, htext, hread⟩
        obtain ⟨_, more, rfl, hc, hmore⟩ := List.map_eq_cons_iff.mp hread
        obtain ⟨rfl, rfl⟩ := List.cons.inj htext
        rw [if_pos hc.symm]
        exact ih.mpr ⟨more, rfl, hmore⟩

theorem length_of_afterFolded? {word text rest : List Char}
    (h : afterFolded? word text = some rest) : text.length = word.length + rest.length := by
  obtain ⟨read, rfl, hread⟩ := afterFolded?_eq_some_iff.mp h
  have hlength := congrArg List.length hread
  rw [List.length_map, List.length_map] at hlength
  rw [List.length_append, hlength]

end TagSet
end Stencil
