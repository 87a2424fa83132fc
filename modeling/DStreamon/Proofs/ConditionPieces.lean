import DStreamon.Conditions
import Mathlib.Data.List.Chain

/-!
# The pieces of a condition

The regular expression takes a text apart at the first `or` or `and` behind each comparison.  A
piece can only be found again where there is a comparison, so that it is replaced in its own place
and nowhere else, if no two pieces are alike.
-/

namespace DStreamon.Conditions

open Backtrack Pattern
open Replace (replace)
open Substitution (isWord)

variable {tables : List (List Char)} {p q : Piece} {l s t u v rest stop tail : List Char}
  {c : Char} {r : Rel}

/-! ## Comparisons in a text -/

def isOp (c : Char) : Bool := c ∈ ['<', '>', '!', '=']

/-- A text in which nothing is compared. -/
def Quiet (l : List Char) : Prop := ∀ c ∈ l, isOp c = false ∧ c ≠ '\n'

instance (l : List Char) : Decidable (Quiet l) := List.decidableBAll _ l

theorem Quiet.append (hs : Quiet s) (ht : Quiet t) : Quiet (s ++ t) := by
  intro c hc
  rcases List.mem_append.1 hc with hc | hc
  · exact hs c hc
  · exact ht c hc

theorem Quiet.of_append (h : Quiet (s ++ t)) : Quiet s ∧ Quiet t :=
  ⟨fun c hc => h c (List.mem_append_left t hc), fun c hc => h c (List.mem_append_right s hc)⟩

theorem Rel.head_text (r : Rel) (s : List Char) : ∃ c ∈ (r.text ++ s).head?, isOp c = true := by
  cases r <;> exact ⟨_, rfl, by decide⟩

theorem Rel.blank_notMem_text (r : Rel) : ' ' ∉ r.text := by
  cases r <;> decide

theorem Rel.text_inj {r' : Rel} (h : r.text ++ ' ' :: s = r'.text ++ ' ' :: t) :
    r = r' ∧ s = t := by
  cases r <;> cases r' <;> simp_all [Rel.text]

theorem opGroup_ne (h : c ≠ ' ') (l : List Char) : opGroup (c :: l) = [] := by
  have hblank : (word [' '] : Pattern Char (List Char)) (c :: l) = [] :=
    word_nil fun hp => h (List.cons_prefix_cons.1 hp).1.symm
  rw [opGroup, alt, append_nil_left hblank, append_nil_left hblank]
  rfl

theorem opGroup_blank (h : ∀ c ∈ l.head?, isOp c = false) : opGroup (' ' :: l) = [] := by
  have hone : ∀ a b, isOp a = true → isOp b = true →
      (one fun c => c ∈ [a, b]) l = [] := fun a b ha hb => one_nil fun c hc hmem => by
    have := h c hc
    simp only [decide_eq_true_eq, List.mem_cons, List.not_mem_nil, or_false] at hmem
    rcases hmem with rfl | rfl
    · exact absurd (ha.symm.trans this) (by decide)
    · exact absurd (hb.symm.trans this) (by decide)
  have hword : (word [' '] : Pattern Char (List Char)) (' ' :: l) = [([' '], l)] := rfl
  rw [opGroup, alt, append_nil_right hword (append_nil_left (hone '<' '>' rfl rfl)),
    append_nil_right hword (append_nil_left (hone '!' '=' rfl rfl))]
  rfl

/-- Where the comparison does not begin, the group fails. -/
theorem opGroup_quiet (hl : Quiet l) (hne : l ≠ []) (hs : ∀ c ∈ s.head?, isOp c = false) :
    opGroup (l ++ s) = [] := by
  obtain ⟨c, l, rfl⟩ := List.exists_cons_of_ne_nil hne
  by_cases hc : c = ' '
  · rw [List.cons_append, hc]
    refine opGroup_blank fun d hd => ?_
    cases l with
    | nil => exact hs d hd
    | cons x l =>
      obtain rfl : x = d := by simpa using hd
      exact (hl x (by simp)).1
  · exact opGroup_ne hc _

/-- The text of a piece. -/
def Piece.segment (p : Piece) : List Char := p.left ++ ' ' :: (p.rel.text ++ ' ' :: p.right)

/-- What the group leaves of what stands behind the comparison. -/
def Rel.behind (r : Rel) (right : List Char) : List Char :=
  if r = .eq ∨ r = .ne then ' ' :: right else right

def Rel.group (r : Rel) : List Char :=
  if r = .eq ∨ r = .ne then ' ' :: r.text else ' ' :: (r.text ++ [' '])

theorem group_append_behind (r : Rel) (s : List Char) :
    r.group ++ r.behind s = ' ' :: (r.text ++ ' ' :: s) := by
  cases r <;> rfl

theorem takes_opGroup (r : Rel) (s : List Char) :
    Takes opGroup (' ' :: (r.text ++ ' ' :: s)) r.group (r.behind s) := by
  cases r <;> rfl

/-! ## Cutting -/

/-- What follows a piece: nothing, or a sign with a blank before it. -/
def Stop (right stop rest : List Char) : Prop :=
  stop = [] ∧ rest = [] ∨ (stop = orWord ∨ stop = andWord) ∧ ∃ y, right = y ++ [' ']

theorem regex_eq : regex = (one anyChar).andThen fun a => (few anyChar).andThen fun w =>
    opGroup.andThen fun o => (one anyChar).andThen fun b => (few anyChar).andThen fun x =>
      endGroup.andThen fun _ => give (a ++ w ++ (o ++ (b ++ x))) := by
  simp only [regex, something, few1, Pattern.append, andThen_assoc, give_andThen]

theorem takes_endGroup (hstop : Stop l stop rest) : Takes endGroup (stop ++ rest) stop rest := by
  have hend : ∀ c cs, c ≠ '\n' → endOfText (c :: cs) = [] := fun c cs hc => by
    simp [endOfText, hc]
  rcases hstop with ⟨rfl, rfl⟩ | ⟨rfl | rfl, -⟩
  · rfl
  · exact Takes.alt_right (hend _ _ (by decide)) (Takes.alt_left takes_word)
  · exact Takes.alt_right (hend _ _ (by decide)) (Takes.alt_right rfl takes_word)

theorem endGroup_nil (hv : Quiet v) (hne : v ≠ []) (hor : ¬ orWord <+: v ++ s)
    (hand : ¬ andWord <+: v ++ s) : endGroup (v ++ s) = [] := by
  obtain ⟨c, v, rfl⟩ := List.exists_cons_of_ne_nil hne
  have hc := (hv c List.mem_cons_self).2
  have hend : endOfText (c :: v ++ s) = [] := by
    simp [endOfText, hc]
  rw [endGroup, alt, alt, hend, show ['o', 'r'] = orWord from rfl,
    show ['a', 'n', 'd'] = andWord from rfl, word_nil hor, word_nil hand]
  rfl

/-- A sign does not begin in a text and end in what follows the blank at its end. -/
theorem not_prefix_of_stop {w : List Char} (hw : ' ' ∉ w) (hne : v ≠ [])
    (hstop : Stop (u ++ v) stop rest) (h : ¬ w <:+: v) : ¬ w <+: v ++ (stop ++ rest) := by
  intro hp
  rcases hstop with ⟨rfl, rfl⟩ | ⟨-, y, hy⟩
  · rw [List.append_nil, List.append_nil] at hp
    exact h hp.isInfix
  · obtain ⟨v, rfl⟩ : ∃ v', v = v' ++ [' '] := by
      obtain ⟨v', c, rfl⟩ := List.eq_nil_or_concat' v |>.resolve_left hne
      rw [← List.append_assoc] at hy
      obtain ⟨-, hc⟩ := List.append_inj' hy rfl
      exact ⟨v', by rw [hc]⟩
    rw [List.append_assoc] at hp
    exact h ((Replace.prefix_of_notMem hw hp).isInfix.trans (List.prefix_append v _).isInfix)

theorem Rel.behind_append : r.behind (s ++ t) = r.behind s ++ t := by
  unfold behind
  split <;> rfl

/-- What stands behind the comparison, after the first character. -/
theorem Piece.Whole.behind (h : p.Whole) (hne : p.right ≠ []) (hright : Quiet p.right) :
    ∃ b y, p.rel.behind p.right = b :: y ∧ b ≠ '\n' ∧ Quiet y ∧ (∃ u, p.right = u ++ y) ∧
      ¬ orWord <:+: y ∧ ¬ andWord <:+: y := by
  unfold Whole at h
  unfold Rel.behind
  split
  · next hrel =>
    rw [if_pos hrel] at h
    exact ⟨' ', p.right, rfl, by decide, hright, ⟨[], rfl⟩, h⟩
  · next hrel =>
    rw [if_neg hrel] at h
    obtain ⟨b, y, hy⟩ := List.exists_cons_of_ne_nil hne
    rw [hy] at h hright ⊢
    exact ⟨b, y, rfl, (hright b List.mem_cons_self).2,
      fun c hc => hright c (List.mem_cons_of_mem b hc), ⟨[b], rfl⟩, h⟩

/-- The piece is found. -/
theorem takes_regex (hleft : Quiet p.left) (hne : p.left ≠ []) (hright : Quiet p.right)
    (hne' : p.right ≠ []) (hwhole : p.Whole) (hstop : Stop p.right stop rest) :
    Takes regex (p.segment ++ (stop ++ rest)) p.segment rest := by
  obtain ⟨a, w, hw⟩ := List.exists_cons_of_ne_nil hne
  obtain ⟨b, y, hbehind, hb, hy, ⟨z, hz⟩, hor, hand⟩ := hwhole.behind hne' hright
  have htext : p.segment ++ (stop ++ rest) =
      a :: (w ++ ' ' :: (p.rel.text ++ ' ' :: (p.right ++ (stop ++ rest)))) := by
    simp [Piece.segment, hw]
  have hseg : p.segment = [a] ++ w ++ (p.rel.group ++ ([b] ++ y)) := by
    have := group_append_behind p.rel p.right
    rw [hbehind] at this
    rw [Piece.segment, hw, ← this]
    simp
  rw [hw] at hleft
  have hany : ∀ {c : Char}, c ≠ '\n' → anyChar c = true := fun h => decide_eq_true h
  rw [htext, regex_eq]
  refine (takes_one (hany (hleft a List.mem_cons_self).2)).andThen ?_
  refine takes_few (fun c hc => hany (hleft c (List.mem_cons_of_mem a hc)).2) ?_ ?_
  · rintro u v rfl hv
    refine andThen_nil (opGroup_quiet (fun c hc => hleft c ?_) hv (by simp [isOp]))
    exact List.mem_cons_of_mem a (List.mem_append_right u hc)
  refine (takes_opGroup p.rel _).andThen ?_
  rw [Rel.behind_append, hbehind]
  refine (takes_one (hany hb)).andThen ?_
  refine takes_few (fun c hc => hany (hy c hc).2) ?_ ?_
  · rintro u v rfl hv
    rw [← List.append_assoc] at hz
    rw [hz] at hstop
    refine andThen_nil (endGroup_nil hy.of_append.2 hv ?_ ?_)
    · exact not_prefix_of_stop (by decide) hv hstop fun h =>
        hor (h.trans (List.suffix_append u v).isInfix)
    · exact not_prefix_of_stop (by decide) hv hstop fun h =>
        hand (h.trans (List.suffix_append u v).isInfix)
  rw [hseg]
  exact (takes_endGroup hstop).andThen (takes_give.2 ⟨rfl, rfl⟩)

/-- Where nothing is compared, nothing is found. -/
theorem findAll_quiet : ∀ {l : List Char}, Quiet l → regex.findAll l = []
  | [], _ => rfl
  | a :: l, hl => by
    have hnil : regex (a :: l) = [] := by
      rw [regex_eq]
      have ha : one anyChar (a :: l) = [([a], l)] := by
        simp [one, anyChar, (hl a List.mem_cons_self).2]
      rw [andThen_single ha]
      refine few_nil fun u v huv => andThen_nil ?_
      cases v with
      | nil => rfl
      | cons c v =>
        rw [← List.append_nil (c :: v)]
        refine opGroup_quiet (fun d hd => hl d ?_) (List.cons_ne_nil c v) (by simp)
        rw [huv]
        exact List.mem_cons_of_mem a (List.mem_append_right u hd)
    rw [findAll_cons hnil]
    exact findAll_quiet fun c hc => hl c (List.mem_cons_of_mem a hc)

/-! ## Where a piece stands -/

/-- No comparison begins behind the first of two characters. -/
def NoOp (a b : Char) : Prop := ¬ (a = ' ' ∧ isOp b = true)

/-- No comparison begins within the text. -/
def Clean (l : List Char) : Prop := l.IsChain NoOp

theorem clean_of_notMem (h : ' ' ∉ l) : Clean l :=
  List.isChain_iff_getElem.2 fun _ _ hop => h (hop.1 ▸ List.getElem_mem _)

theorem Quiet.clean (h : Quiet l) : Clean l :=
  List.isChain_iff_getElem.2 fun i hi hop =>
    absurd hop.2 (by rw [(h _ (List.getElem_mem hi)).1]; decide)

theorem Clean.append (hs : Clean s) (ht : Clean t) (h : ∀ c ∈ t.head?, isOp c = false) :
    Clean (s ++ t) :=
  List.IsChain.append hs ht fun a _ b hb hop => by
    rw [h b hb] at hop
    exact absurd hop.2 (by decide)

/-- The first comparison of a text is not in a clean front of it. -/
theorem Clean.skip : ∀ {s t u v : List Char}, Clean s → (∀ c ∈ t.head?, isOp c = false) →
    (∃ c ∈ v.head?, isOp c = true) → s ++ t = u ++ ' ' :: v → ∃ w, u = s ++ w ∧ t = w ++ ' ' :: v
  | [], t, u, v, _, _, _, h => ⟨u, rfl, h⟩
  | a :: s, t, [], v, hs, ht, ⟨c, hc, hop⟩, h => by
    obtain ⟨rfl, rfl⟩ := List.cons.inj h
    cases s with
    | nil => exact absurd hop (by rw [ht c hc]; decide)
    | cons d s =>
      obtain rfl : d = c := by simpa using hc
      exact absurd ⟨rfl, hop⟩ (List.isChain_cons_cons.1 hs).1
  | a :: s, t, x :: u, v, hs, ht, hv, h => by
    obtain ⟨rfl, hrest⟩ := List.cons.inj h
    obtain ⟨w, rfl, hw⟩ := Clean.skip (s := s) (List.IsChain.tail hs) ht hv hrest
    exact ⟨w, rfl, hw⟩

/-- A piece with what stands before and behind it. -/
structure Block where
  pre : List Char
  piece : Piece
  post : List Char

def Block.text (b : Block) : List Char := b.pre ++ (b.piece.segment ++ b.post)

structure Block.Sound (b : Block) : Prop where
  pre : Clean b.pre
  head : ∀ c ∈ b.pre.head?, isOp c = false
  left : Quiet b.piece.left
  ne : b.piece.left ≠ []
  right : Quiet b.piece.right
  post : Quiet b.post

variable {b : Block} {bs bs₁ bs₂ : List Block}

theorem Quiet.head (h : Quiet l) : ∀ c ∈ l.head?, isOp c = false := fun c hc =>
  (h c (List.mem_of_mem_head? hc)).1

theorem Block.Sound.clean (hb : b.Sound) : Clean (b.pre ++ b.piece.left) :=
  hb.pre.append hb.left.clean hb.left.head

theorem Block.Sound.head_text (hb : b.Sound) : ∀ c ∈ (b.text ++ s).head?, isOp c = false := by
  intro c hc
  obtain ⟨d, left, hleft⟩ := List.exists_cons_of_ne_nil hb.ne
  unfold Block.text Piece.segment at hc
  cases hpre : b.pre with
  | nil =>
    obtain rfl : d = c := by simpa [hpre, hleft] using hc
    exact (hb.left d (by simp [hleft])).1
  | cons x pre =>
    obtain rfl : x = c := by simpa [hpre] using hc
    exact hb.head x (by simp [hpre])

theorem head_blocks (hbs : ∀ b ∈ bs, b.Sound) (htail : Quiet tail) :
    ∀ c ∈ (bs.flatMap Block.text ++ tail).head?, isOp c = false := by
  cases bs with
  | nil => exact htail.head
  | cons b bs =>
    rw [List.flatMap_cons, List.append_assoc]
    exact (hbs b List.mem_cons_self).head_text

/-- Wherever there is a comparison, it is that of a piece. -/
theorem exists_block : ∀ {bs : List Block} {u : List Char}, (∀ b ∈ bs, b.Sound) → Quiet tail →
    (∃ c ∈ v.head?, isOp c = true) → bs.flatMap Block.text ++ tail = u ++ ' ' :: v →
    ∃ bs₁ b bs₂, bs = bs₁ ++ b :: bs₂ ∧
      u = bs₁.flatMap Block.text ++ (b.pre ++ b.piece.left) ∧
      ∃ rest, v = b.piece.rel.text ++ ' ' :: (b.piece.right ++ rest)
  | [], u, _, htail, hv, h => by
    obtain ⟨w, -, hw⟩ := htail.clean.skip (t := []) (by simp) hv (by simpa using h)
    exact absurd hw.symm (by simp)
  | b :: bs, u, hbs, htail, hv, h => by
    have hb := hbs b List.mem_cons_self
    have hbs' : ∀ b ∈ bs, b.Sound := fun x hx => hbs x (List.mem_cons_of_mem b hx)
    have htext : (b.pre ++ b.piece.left) ++ ' ' :: (b.piece.rel.text ++ ' ' :: (b.piece.right ++
        b.post ++ (bs.flatMap Block.text ++ tail))) = u ++ ' ' :: v := by
      rw [← h]
      simp [Block.text, Piece.segment]
    obtain ⟨w, rfl, hw⟩ := hb.clean.skip (by simp [isOp]) hv htext
    cases w with
    | nil =>
      refine ⟨[], b, bs, rfl, by simp, b.post ++ (bs.flatMap Block.text ++ tail), ?_⟩
      rw [← (List.cons.inj hw).2, List.append_assoc]
    | cons x w =>
      obtain ⟨rfl, hrel⟩ := List.cons.inj hw
      obtain ⟨w, rfl, hbehind⟩ := (clean_of_notMem b.piece.rel.blank_notMem_text).skip
        (by simp [isOp]) hv hrel
      have hquiet : Quiet (' ' :: (b.piece.right ++ b.post)) :=
        Quiet.append (s := [' ']) (by decide) (hb.right.append hb.post)
      obtain ⟨w, rfl, hnext⟩ := hquiet.clean.skip (head_blocks hbs' htail) hv
        (by simpa using hbehind)
      obtain ⟨bs₁, b', bs₂, rfl, rfl, hrest⟩ := exists_block hbs' htail hv hnext
      refine ⟨b :: bs₁, b', bs₂, rfl, ?_, hrest⟩
      simp [Block.text, Piece.segment]

theorem Piece.Alike.symm (h : p.Alike q) : q.Alike p := ⟨h.1.symm, h.2.1.symm, h.2.2.symm⟩

/-- A piece that is not like any other stands in its own place only. -/
theorem segment_unique {post a b : List Char} (hbs : ∀ b ∈ bs₁ ++ ⟨[], p, post⟩ :: bs₂, b.Sound)
    (htail : Quiet tail) (hbefore : ∀ b ∈ bs₁, ¬ b.piece.Alike p)
    (hafter : ∀ b ∈ bs₂, ¬ p.Alike b.piece)
    (h : (bs₁ ++ ⟨[], p, post⟩ :: bs₂).flatMap Block.text ++ tail = a ++ p.segment ++ b) :
    a = bs₁.flatMap Block.text := by
  obtain ⟨cs₁, c, cs₂, hcs, ha, rest, hv⟩ := exists_block (u := a ++ p.left)
    (v := p.rel.text ++ ' ' :: (p.right ++ b)) hbs htail (p.rel.head_text _)
    (by rw [h]; simp [Piece.segment])
  obtain ⟨heq, hright⟩ := Rel.text_inj hv
  have halike : p.Alike c.piece := by
    refine ⟨heq, ?_, ?_⟩
    · have hc : c.piece.left <:+ a ++ p.left := by
        rw [ha, ← List.append_assoc]
        exact List.suffix_append _ _
      exact List.suffix_or_suffix_of_suffix (List.suffix_append a p.left) hc
    · have hc : c.piece.right <+: p.right ++ b := by
        rw [hright]
        exact List.prefix_append _ _
      exact List.prefix_or_prefix_of_prefix (List.prefix_append p.right b) hc
  obtain ⟨ds, rfl, hds⟩ | ⟨ds, rfl, hds⟩ := List.append_eq_append_iff.1 hcs
  · cases ds with
    | nil =>
      obtain ⟨rfl, -⟩ := List.cons.inj hds
      rw [List.nil_append] at ha
      exact List.append_cancel_right (ha.trans (by simp))
    | cons d ds =>
      obtain ⟨rfl, rfl⟩ := List.cons.inj hds
      exact absurd halike (hafter c (by simp))
  · cases ds with
    | nil =>
      obtain ⟨rfl, -⟩ := List.cons.inj hds
      rw [List.nil_append] at ha
      exact List.append_cancel_right (ha.trans (by simp))
    | cons d ds =>
      obtain ⟨rfl, rfl⟩ := List.cons.inj hds
      exact absurd halike.symm (hbefore c (by simp))

/-! ## One piece after the other -/

/-- A piece and the sign behind it. -/
structure Cut where
  piece : Piece
  stop : List Char

/-- The lookups in a piece. -/
def Cut.looks (tables : List (List Char)) (c : Cut) : List Access :=
  (tabRegex tables).findAll c.piece.segment

def Cut.raw (c : Cut) : Block := ⟨[], c.piece, c.stop⟩

def Cut.guarded (tables : List (List Char)) (c : Cut) : Block :=
  ⟨'(' :: ((c.looks tables).flatMap protector ++ [' ']), c.piece, ')' :: c.stop⟩

/-- A text of pieces, and what is behind the last. -/
def rawText (cs : List Cut) (tail : List Char) : List Char :=
  (cs.map Cut.raw).flatMap Block.text ++ tail

def guardedText (tables : List (List Char)) (cs : List Cut) (tail : List Char) : List Char :=
  (cs.map (Cut.guarded tables)).flatMap Block.text ++ tail

structure Cut.Sound (tables : List (List Char)) (c : Cut) : Prop where
  left : Quiet c.piece.left
  left_ne : c.piece.left ≠ []
  right : Quiet c.piece.right
  right_ne : c.piece.right ≠ []
  whole : c.piece.Whole
  words : ∀ t ∈ c.looks tables, IsWord t.1 ∧ IsWord t.2

/-- The text is cut into just these pieces. -/
def Laid (tables : List (List Char)) : List Cut → List Char → Prop
  | [], tail => Quiet tail
  | c :: cs, tail =>
    c.Sound tables ∧ Stop c.piece.right c.stop (rawText cs tail) ∧ Laid tables cs tail

variable {cut : Cut} {cs ds : List Cut} {looks : List Access}

theorem Stop.quiet (h : Stop l stop rest) : Quiet stop := by
  rcases h with ⟨rfl, -⟩ | ⟨rfl | rfl, -⟩ <;> decide

theorem IsWord.quiet (h : IsWord l) : Quiet l := by
  have hops : ∀ d ∈ ['<', '>', '!', '=', '\n'], isWord d = false := by
    simpa using (by decide : ['<', '>', '!', '=', '\n'].all (fun d => !isWord d) = true)
  have hno : ∀ d ∈ ['<', '>', '!', '=', '\n'], d ∉ l := fun d hd hmem =>
    absurd (h.2 d hmem) (by rw [hops d hd]; decide)
  intro c hc
  refine ⟨decide_eq_false fun hmem => ?_, fun hline => hno c (by simp [hline]) hc⟩
  exact hno c (List.mem_append_left ['\n'] hmem) hc

theorem IsWord.blank_notMem (h : IsWord l) : ' ' ∉ l := fun hmem =>
  absurd (h.2 ' ' hmem) (by decide)

theorem clean_protectors : ∀ {looks : List Access}, (∀ t ∈ looks, IsWord t.1 ∧ IsWord t.2) →
    Clean (looks.flatMap protector ++ [' ']) ∧
      ∀ c ∈ (looks.flatMap protector ++ [' ']).head?, isOp c = false
  | [], _ => ⟨(by decide : Quiet [' ']).clean, by simp [isOp]⟩
  | t :: looks, h => by
    obtain ⟨htable, hkey⟩ := h t List.mem_cons_self
    obtain ⟨hclean, hhead⟩ := clean_protectors fun x hx => h x (List.mem_cons_of_mem t hx)
    have hget : Clean (getText t) := clean_of_notMem (by
      simp [getText, tablesWord, getWord, htable.blank_notMem, hkey.blank_notMem])
    have hand : Quiet (' ' :: (andWord ++ [' '])) := by decide
    rw [List.flatMap_cons, List.append_assoc, protector, List.append_assoc]
    refine ⟨hget.append (hand.clean.append hclean hhead) (by simp [isOp]), ?_⟩
    simp [getText, tablesWord, isOp]

theorem Cut.Sound.raw (h : cut.Sound tables) (hstop : Quiet cut.stop) : cut.raw.Sound :=
  ⟨List.isChain_nil, by simp [Cut.raw], h.left, h.left_ne, h.right, hstop⟩

theorem Cut.Sound.guarded (h : cut.Sound tables) (hstop : Quiet cut.stop) :
    (cut.guarded tables).Sound := by
  obtain ⟨hclean, hhead⟩ := clean_protectors h.words
  refine ⟨?_, by simp [Cut.guarded, isOp], h.left, h.left_ne, h.right, ?_⟩
  · exact Clean.append (s := ['(']) (List.isChain_singleton _) hclean hhead
  · exact Quiet.append (s := [')']) (by decide) hstop

theorem text_guarded (tables : List (List Char)) (c : Cut) :
    (c.guarded tables).text = bodyNew (c.looks tables) c.piece.segment ++ c.stop := by
  simp [Block.text, Cut.guarded, bodyNew]

theorem rawText_cons : rawText (cut :: cs) tail =
    cut.piece.segment ++ (cut.stop ++ rawText cs tail) := by
  simp [rawText, Block.text, Cut.raw]

theorem Laid.sound : ∀ {cs : List Cut}, Laid tables cs tail →
    (∀ c ∈ cs, c.raw.Sound ∧ (c.guarded tables).Sound) ∧ Quiet tail
  | [], h => ⟨by simp, h⟩
  | c :: cs, ⟨hc, hstop, h⟩ => by
    obtain ⟨hcs, htail⟩ := h.sound
    exact ⟨List.forall_mem_cons.2 ⟨⟨hc.raw hstop.quiet, hc.guarded hstop.quiet⟩, hcs⟩, htail⟩

/-- The pieces are found one after the other. -/
theorem findAll_rawText : ∀ {cs : List Cut}, Laid tables cs tail →
    regex.findAll (rawText cs tail) = cs.map fun c => c.piece.segment
  | [], h => findAll_quiet h
  | c :: cs, ⟨hc, hstop, h⟩ => by
    have htakes := takes_regex hc.left hc.left_ne hc.right hc.right_ne hc.whole hstop
    have hne : c.piece.segment ++ c.stop ≠ [] := by
      simp [Piece.segment, hc.left_ne]
    rw [rawText_cons, ← List.append_assoc]
    rw [← List.append_assoc] at htakes
    rw [findAll_takes hne htakes, findAll_rawText h, List.map_cons]

/-- A piece that is not like any other is replaced in its place. -/
theorem replace_piece (hds : ∀ d ∈ ds, (d.guarded tables).Sound) (h : Laid tables (cut :: cs) tail)
    (hdist : (ds ++ cut :: cs).Pairwise fun c d => ¬ c.piece.Alike d.piece) (new : List Char) :
    replace cut.piece.segment new
      ((ds.map (Cut.guarded tables)).flatMap Block.text ++ rawText (cut :: cs) tail) =
        (ds.map (Cut.guarded tables)).flatMap Block.text ++
          (new ++ (cut.stop ++ rawText cs tail)) := by
  obtain ⟨hsound, htail⟩ := h.sound
  obtain ⟨-, hpair, hbefore⟩ := List.pairwise_append.1 hdist
  have hne : cut.piece.segment ≠ [] := by
    simp [Piece.segment]
  have hbs : ∀ b ∈ ds.map (Cut.guarded tables) ++ ⟨[], cut.piece, cut.stop⟩ :: cs.map Cut.raw,
      b.Sound := by
    intro b hb
    rcases List.mem_append.1 hb with hb | hb
    · obtain ⟨d, hd, rfl⟩ := List.mem_map.1 hb
      exact hds d hd
    · rw [← Cut.raw, ← List.map_cons] at hb
      obtain ⟨c, hc, rfl⟩ := List.mem_map.1 hb
      exact (hsound c hc).1
  have hunique : ∀ a' b', (ds.map (Cut.guarded tables)).flatMap Block.text ++ cut.piece.segment ++
      (cut.stop ++ rawText cs tail) = a' ++ cut.piece.segment ++ b' →
        a' = (ds.map (Cut.guarded tables)).flatMap Block.text := by
    intro a' b' hab
    refine segment_unique hbs htail ?_ ?_ (Eq.trans ?_ hab)
    · intro b hb
      obtain ⟨d, hd, rfl⟩ := List.mem_map.1 hb
      exact hbefore d hd cut List.mem_cons_self
    · intro b hb
      obtain ⟨c, hc, rfl⟩ := List.mem_map.1 hb
      exact (List.pairwise_cons.1 hpair).1 c hc
    · simp [rawText, Block.text]
  rw [rawText_cons, ← List.append_assoc, Replace.replace_once hne hunique, List.append_assoc]

theorem foldl_protect : ∀ {cs ds : List Cut} {looks : List Access},
    (∀ d ∈ ds, (d.guarded tables).Sound) → Laid tables cs tail →
    ((ds ++ cs).Pairwise fun c d => ¬ c.piece.Alike d.piece) →
    (cs.map fun c => c.piece.segment).foldl (protect tables)
        ⟨(ds.map (Cut.guarded tables)).flatMap Block.text ++ rawText cs tail, looks⟩ =
      ⟨guardedText tables (ds ++ cs) tail, looks ++ cs.flatMap (Cut.looks tables)⟩
  | [], ds, looks, _, _, _ => by
    simp [guardedText, rawText]
  | c :: cs, ds, looks, hds, h, hdist => by
    have hc := (h.sound.1 c List.mem_cons_self).2
    have hds' : ∀ d ∈ ds ++ [c], (d.guarded tables).Sound := by
      simpa [or_imp, forall_and] using ⟨hds, hc⟩
    have hcs : ds ++ c :: cs = (ds ++ [c]) ++ cs := by
      rw [List.append_assoc]
      rfl
    rw [List.map_cons, List.foldl_cons, protect, replace_piece hds h hdist]
    rw [hcs] at hdist ⊢
    rw [List.flatMap_cons, ← List.append_assoc looks, ← foldl_protect hds' h.2.2 hdist]
    simp [text_guarded, Cut.looks]

/-- The pieces are guarded, each in its place. -/
theorem protect_rawText (h : Laid tables cs tail)
    (hdist : cs.Pairwise fun c d => ¬ c.piece.Alike d.piece) :
    (regex.findAll (rawText cs tail)).foldl (protect tables) ⟨rawText cs tail, []⟩ =
      ⟨guardedText tables cs tail, cs.flatMap (Cut.looks tables)⟩ := by
  have hnone : ∀ d ∈ ([] : List Cut), (d.guarded tables).Sound := by simp
  rw [findAll_rawText h]
  exact foldl_protect hnone h hdist

end DStreamon.Conditions
