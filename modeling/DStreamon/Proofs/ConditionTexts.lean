import DStreamon.Conditions

/-!
# What becomes of the words and signs of a condition

Between the loop over the pieces and what C++ reads there are two replacements: of lookups by calls
and of fields by registers.  Both go from left to right, and so does what is read.
-/

namespace DStreamon.Conditions

open Backtrack Pattern
open Replace (mapWords mapRuns)
open Substitution (isWord)

variable {tables : List (List Char)} {k l s t w rest rest' : List Char} {c d : Char} {a : Access}

/-! ## Words -/

/-- Two texts that begin with a word: the words are the same. -/
theorem word_inj : ∀ {s t : List Char}, (∀ c ∈ s, isWord c = true) → (∀ c ∈ t, isWord c = true) →
    isWord c = false → isWord d = false → s ++ c :: rest = t ++ d :: rest' →
    s = t ∧ c = d ∧ rest = rest'
  | [], [], _, _, _, _, h => ⟨rfl, List.cons.inj h⟩
  | [], x :: t, _, ht, hc, _, h => by
    obtain ⟨rfl, -⟩ := List.cons.inj h
    rw [ht c List.mem_cons_self] at hc
    cases hc
  | x :: s, [], hs, _, _, hd, h => by
    obtain ⟨rfl, -⟩ := List.cons.inj h
    rw [hs x List.mem_cons_self] at hd
    cases hd
  | x :: s, y :: t, hs, ht, hc, hd, h => by
    obtain ⟨rfl, hrest⟩ := List.cons.inj h
    obtain ⟨rfl, hcd⟩ := word_inj (fun c hc => hs c (List.mem_cons_of_mem x hc))
      (fun c hc => ht c (List.mem_cons_of_mem x hc)) hc hd hrest
    exact ⟨rfl, hcd⟩

/-- What follows a word in a text. -/
def Ends (rest : List Char) : Prop := ∀ c ∈ rest.head?, isWord c = false

theorem ends_nil : Ends [] := by simp [Ends]

theorem ends_cons (hc : isWord c = false) : Ends (c :: rest) := by simpa [Ends] using hc

/-- A word and a closing bracket. -/
def Closes (rest : List Char) : Prop := ∃ k r, IsWord k ∧ rest = k ++ ')' :: r

/-- An argument in brackets. -/
def Calls (rest : List Char) : Prop := ∃ r, rest = '(' :: r ∧ Closes r

theorem not_closes (hw : ∀ c ∈ w, isWord c = true) (hc : isWord c = false) (hne : c ≠ ')') :
    ¬ Closes (w ++ c :: rest) := by
  rintro ⟨k, r, hk, h⟩
  exact hne (word_inj hw hk.2 hc (by decide) h).2.1

theorem not_closes_sign (hc : isWord c = false) : ¬ Closes (c :: rest) := by
  rintro ⟨k, r, hk, h⟩
  obtain ⟨d, k, rfl⟩ := List.exists_cons_of_ne_nil hk.1
  obtain ⟨rfl, -⟩ := List.cons.inj h
  rw [hk.2 c List.mem_cons_self] at hc
  cases hc

theorem not_calls_of_ne (h : c ≠ '(') : ¬ Calls (c :: rest) := by
  rintro ⟨r, hr, -⟩
  exact h (List.cons.inj hr).1

theorem not_calls_nil : ¬ Calls [] := by
  rintro ⟨r, hr, -⟩
  cases hr

/-! ## Lookups -/

theorem mem_tabRegex {x : Access × List Char} : x ∈ tabRegex tables l ↔
    (x.1.1 ∈ tables ∨ tables = [] ∧ x.1.1 = []) ∧ IsWord x.1.2 ∧
      l = x.1.1 ++ '(' :: (x.1.2 ++ ')' :: x.2) := by
  obtain ⟨⟨tname, tkey⟩, rest⟩ := x
  simp only [tabRegex, mem_andThen, Prod.exists, mem_anyOf, mem_word, mem_many1, give,
    List.mem_singleton, Prod.mk.injEq]
  constructor
  · rintro ⟨_, _, ⟨htable, rfl⟩, _, _, ⟨rfl, rfl⟩, k, _, ⟨hne, rfl, hk⟩, _, _, ⟨rfl, rfl⟩,
      ⟨rfl, rfl⟩, rfl⟩
    exact ⟨htable, ⟨hne, hk⟩, rfl⟩
  · rintro ⟨htable, ⟨hne, hk⟩, rfl⟩
    exact ⟨_, _, ⟨htable, rfl⟩, _, _, ⟨rfl, rfl⟩, _, _, ⟨hne, rfl, hk⟩, _, _, ⟨rfl, rfl⟩,
      ⟨rfl, rfl⟩, rfl⟩

/-- The names of tables are words. -/
def Words (tables : List (List Char)) : Prop := ∀ t ∈ tables, IsWord t

theorem isWord_of_mem (hwords : Words tables) (h : t ∈ tables ∨ tables = [] ∧ t = []) :
    ∀ c ∈ t, isWord c = true := by
  rcases h with h | ⟨-, rfl⟩
  · exact (hwords t h).2
  · simp

theorem tabRegex_sign (hwords : Words tables) (hc : isWord c = false)
    (h : tables = [] → ¬ Calls (c :: rest)) : tabRegex tables (c :: rest) = [] := by
  refine List.eq_nil_iff_forall_not_mem.2 fun x hx => ?_
  obtain ⟨htable, hkey, hl⟩ := mem_tabRegex.1 hx
  have hword := isWord_of_mem hwords htable
  obtain ⟨htable', hcalls⟩ := word_inj (s := []) (by simp) hword hc (by decide) hl
  rcases htable with hmem | ⟨hnone, -⟩
  · exact (hwords _ hmem).1 htable'.symm
  · exact h hnone ⟨rest, by rw [hcalls.1], _, _, hkey, hcalls.2⟩

/-- No table is called like the end of a word, or no argument follows. -/
theorem tabRegex_word (hwords : Words tables) (hs : IsWord s) (hrest : Ends rest)
    (h : Calls rest → s ∉ tables) : tabRegex tables (s ++ rest) = [] := by
  refine List.eq_nil_iff_forall_not_mem.2 fun x hx => ?_
  obtain ⟨htable, hkey, hl⟩ := mem_tabRegex.1 hx
  have hword := isWord_of_mem hwords htable
  cases rest with
  | nil =>
    have hmem : '(' ∈ s := by
      rw [← List.append_nil s, hl]
      simp
    exact absurd (hs.2 '(' hmem) (by decide)
  | cons c rest =>
    obtain ⟨hsame, rfl, hcalls⟩ := word_inj hs.2 hword (hrest c rfl) (by decide) hl
    rcases htable with hmem | ⟨-, hnil⟩
    · exact h ⟨_, rfl, _, _, hkey, hcalls⟩ (hsame ▸ hmem)
    · exact hs.1 (hsame.trans hnil)

theorem takes_tabRegex (hwords : Words tables) (htable : a.1 ∈ tables) (hkey : IsWord a.2) :
    Takes (tabRegex tables) (lookText a ++ rest) a rest := by
  have hl : lookText a ++ rest = a.1 ++ '(' :: (a.2 ++ ')' :: rest) := by
    simp [lookText]
  refine takes_of_unique (mem_tabRegex.2 ⟨.inl htable, hkey, hl⟩) ?_
  rintro ⟨⟨tname, tkey⟩, r⟩ hx
  obtain ⟨htable', hkey', hl'⟩ := mem_tabRegex.1 hx
  obtain ⟨rfl, -, hargs⟩ := word_inj (hwords _ htable).2 (isWord_of_mem hwords htable') (by decide)
    (by decide) (hl.symm.trans hl')
  obtain ⟨rfl, -, rfl⟩ := word_inj hkey.2 hkey'.2 (by decide) (by decide) hargs
  rfl

/-! ## The text cut at the lookups -/

theorem cut_sign (hwords : Words tables) (hc : isWord c = false)
    (h : tables = [] → ¬ Calls (c :: rest)) :
    (tabRegex tables).cut (c :: rest) = .inl c :: (tabRegex tables).cut rest :=
  cut_skip (tabRegex_sign hwords hc h)

theorem cut_word (hwords : Words tables) : ∀ {w : List Char}, (∀ c ∈ w, isWord c = true) →
    Ends rest → (Calls rest → ∀ t ∈ tables, ¬ t <:+ w) →
      (tabRegex tables).cut (w ++ rest) = w.map .inl ++ (tabRegex tables).cut rest
  | [], _, _, _ => rfl
  | c :: w, hw, hrest, h => by
    have hnil : tabRegex tables (c :: w ++ rest) = [] :=
      tabRegex_word hwords ⟨List.cons_ne_nil c w, hw⟩ hrest fun hcalls hmem =>
        h hcalls _ hmem (List.suffix_refl _)
    rw [List.cons_append] at hnil ⊢
    rw [cut_skip hnil, cut_word hwords (fun d hd => hw d (List.mem_cons_of_mem c hd)) hrest
      fun hcalls t ht hsuffix => h hcalls t ht (hsuffix.trans (List.suffix_cons c w))]
    rfl

section Sub

variable {g : Access → List Char}

theorem sub_sign (hwords : Words tables) (hc : isWord c = false)
    (h : tables = [] → ¬ Calls (c :: rest)) :
    (tabRegex tables).sub g (c :: rest) = c :: (tabRegex tables).sub g rest := by
  rw [sub, cut_sign hwords hc h]
  rfl

theorem sub_word (hwords : Words tables) (hw : ∀ c ∈ w, isWord c = true) (hrest : Ends rest)
    (h : Calls rest → ∀ t ∈ tables, ¬ t <:+ w) :
    (tabRegex tables).sub g (w ++ rest) = w ++ (tabRegex tables).sub g rest := by
  rw [sub, cut_word hwords hw hrest h, List.flatMap_append, List.flatMap_map, sub]
  simp

theorem isWord_tablesWord : IsWord tablesWord := by decide

/-- A guard is left as it is, if no table is called like the end of `get`. -/
theorem sub_getText (hwords : Words tables) (htable : a.1 ∈ tables) (hkey : IsWord a.2)
    (hget : ∀ t ∈ tables, ¬ t <:+ getWord) :
    (tabRegex tables).sub g (getText a ++ rest) = getText a ++ (tabRegex tables).sub g rest := by
  have htext : ∀ r, getText a ++ r = tablesWord ++ '.' :: (a.1 ++ '-' :: '>' ::
      (getWord ++ '(' :: (a.2 ++ ')' :: r))) := by
    simp [getText]
  have hsign : ∀ c l, c ≠ '(' → tables = [] → ¬ Calls (c :: l) := fun c l hne _ =>
    not_calls_of_ne hne
  have hsome : ∀ l, tables = [] → ¬ Calls ('(' :: l) := fun l hnone =>
    absurd htable (hnone ▸ List.not_mem_nil)
  have hget' : IsWord getWord := by decide
  rw [htext, htext, sub_word hwords isWord_tablesWord.2 (ends_cons (by decide))
      (fun h => absurd h (not_calls_of_ne (by decide))),
    sub_sign hwords (by decide) (hsign _ _ (by decide)),
    sub_word hwords (hwords _ htable).2 (ends_cons (by decide))
      (fun h => absurd h (not_calls_of_ne (by decide))),
    sub_sign hwords (by decide) (hsign _ _ (by decide)),
    sub_sign hwords (by decide) (hsign _ _ (by decide)),
    sub_word hwords hget'.2 (ends_cons (by decide)) (fun _ => hget),
    sub_sign hwords (by decide) (hsome _),
    sub_word hwords hkey.2 (ends_cons (by decide))
      (fun h => absurd h (not_calls_of_ne (by decide))),
    sub_sign hwords (by decide) (hsign _ _ (by decide))]

end Sub

theorem cut_look (hwords : Words tables) (htable : a.1 ∈ tables) (hkey : IsWord a.2) :
    (tabRegex tables).cut (lookText a ++ rest) = .inr a :: (tabRegex tables).cut rest :=
  cut_takes (by simp [lookText]) (takes_tabRegex hwords htable hkey)

/-! ## Fields -/

theorem mapRuns_word {f : List Char → List Char} : ∀ {w : List Char} (run : List Char),
    (∀ c ∈ w, isWord c = true) → mapRuns isWord f run (w ++ rest) = mapRuns isWord f (run ++ w) rest
  | [], run, _ => by rw [List.nil_append, List.append_nil]
  | c :: w, run, hw => by
    rw [List.cons_append, mapRuns, if_pos (hw c List.mem_cons_self),
      mapRuns_word _ fun d hd => hw d (List.mem_cons_of_mem c hd), List.append_assoc]
    rfl

section Tokens

variable {names : Names}

theorem onTokenMatch_nil (names : Names) : onTokenMatch names.tokens [] = [] := by
  have hnone : names.tokens.lookup [] = none := List.lookup_eq_none_iff.2 fun t ht => by
    simpa using (names.tokenWord t ht).1
  rw [onTokenMatch, hnone]
  rfl

theorem replaceTokens_sign (hc : isWord c = false) :
    replaceTokens names.tokens (c :: rest) = c :: replaceTokens names.tokens rest := by
  rw [replaceTokens, mapWords, mapRuns, if_neg (by rw [hc]; decide), onTokenMatch_nil]
  rfl

theorem replaceTokens_word (hw : ∀ c ∈ w, isWord c = true) (hrest : Ends rest) :
    replaceTokens names.tokens (w ++ rest) =
      onTokenMatch names.tokens w ++ replaceTokens names.tokens rest := by
  rw [replaceTokens, mapWords, mapRuns_word [] hw, List.nil_append]
  cases rest with
  | nil => rw [mapRuns, mapWords, mapRuns, onTokenMatch_nil, List.append_nil]
  | cons c rest =>
    have hc : ¬ isWord c = true := by
      rw [hrest c rfl]
      decide
    rw [mapRuns, if_neg hc, mapWords, mapRuns, if_neg hc, onTokenMatch_nil, List.nil_append]

end Tokens

/-! ## Reading -/

theorem lex_wordChar (hc : isWord c = true) (run : List Char) :
    lex run (c :: rest) = lex (run ++ [c]) rest := by
  rw [lex.eq_def]
  split <;> simp_all <;> exact absurd hc (by decide)

theorem lex_run : ∀ {w : List Char} (run : List Char), (∀ c ∈ w, isWord c = true) →
    lex run (w ++ rest) = lex (run ++ w) rest
  | [], run, _ => by rw [List.nil_append, List.append_nil]
  | c :: w, run, hw => by
    rw [List.cons_append, lex_wordChar (hw c List.mem_cons_self),
      lex_run _ fun d hd => hw d (List.mem_cons_of_mem c hd), List.append_assoc]
    rfl

theorem lex_ends (hrest : Ends rest) (run : List Char) :
    lex run rest = wordOf run ++ lex [] rest := by
  cases rest with
  | nil => simp [lex, wordOf]
  | cons c rest =>
    have hc := hrest c rfl
    rw [lex.eq_def run, lex.eq_def []]
    split <;> simp_all [wordOf]

theorem lex_word (hw : IsWord w) (hrest : Ends rest) :
    lex [] (w ++ rest) = .word w :: lex [] rest := by
  rw [lex_run [] hw.2, List.nil_append, lex_ends hrest, wordOf, if_neg hw.1]
  rfl

section Fields

variable {names : Names} {id : ℕ}

/-- What is read of a text when its fields have been replaced. -/
def readFields (names : Names) (l : List Char) : List Token :=
  lex [] (replaceTokens names.tokens l)

theorem ends_replaceTokens (h : Ends rest) : Ends (replaceTokens names.tokens rest) := by
  cases rest with
  | nil =>
    rw [replaceTokens, mapWords, mapRuns, onTokenMatch_nil]
    exact h
  | cons c rest =>
    rw [replaceTokens_sign (h c rfl)]
    exact fun d hd => h d hd

theorem readFields_word (hw : IsWord w) (hnone : names.tokens.lookup w = none)
    (hrest : Ends rest) : readFields names (w ++ rest) = .word w :: readFields names rest := by
  rw [readFields, replaceTokens_word hw.2 hrest, onTokenMatch, hnone]
  exact lex_word hw (ends_replaceTokens hrest)

theorem readFields_blank : readFields names (' ' :: rest) = readFields names rest := by
  rw [readFields, replaceTokens_sign (by decide)]
  rfl

/-- The signs that stand for themselves. -/
def signs : List Char := ['(', ')', '.', '[', ']', '+', '*', '/']

theorem isWord_signs : ∀ c ∈ signs, isWord c = false := by
  simpa using (by decide : signs.all (fun c => !isWord c) = true)

theorem readFields_sign (hc : c ∈ signs) :
    readFields names (c :: rest) = .sign c :: readFields names rest := by
  rw [readFields, replaceTokens_sign (isWord_signs c hc)]
  simp only [signs, List.mem_cons, List.not_mem_nil, or_false] at hc
  rcases hc with rfl | rfl | rfl | rfl | rfl | rfl | rfl | rfl <;> rfl

theorem readFields_arith (o : Arith) :
    readFields names (o.char :: ' ' :: rest) = .sign o.char :: readFields names rest := by
  have hchar : isWord o.char = false := by
    cases o <;> decide
  rw [readFields, replaceTokens_sign hchar, replaceTokens_sign (by decide)]
  cases o <;> rfl

theorem readFields_rel (r : Rel) :
    readFields names (r.text ++ ' ' :: rest) = .rel r :: readFields names rest := by
  have hrel : replaceTokens names.tokens (r.text ++ ' ' :: rest) =
      r.text ++ ' ' :: replaceTokens names.tokens rest := by
    cases r <;> simp [Rel.text, replaceTokens_sign, isWord]
  rw [readFields, hrel]
  cases r <;> rfl

theorem isWord_digits (n : ℕ) : IsWord (Nat.toDigits 10 n) := by
  refine ⟨Nat.toDigits_ne_nil, fun c hc => ?_⟩
  have hdigit := Nat.isDigit_of_mem_toDigits (b := 10) (by decide) (by decide) hc
  simp [isWord, Char.isAlphanum, hdigit]

theorem lex_register : lex [] (register id ++ ')' :: rest) =
    .word tagsWord :: .arrow :: .word mapWord :: .sign '[' :: .word (Nat.toDigits 10 id) ::
      .sign ']' :: .sign ')' :: lex [] rest := by
  have htext : register id ++ ')' :: rest =
      tagsWord ++ '-' :: '>' :: (mapWord ++ '[' :: (Nat.toDigits 10 id ++ ']' :: ')' :: rest)) := by
    simp [register]
  rw [htext, lex_word (by decide) (ends_cons (by decide)), lex, lex_word (by decide)
    (ends_cons (by decide))]
  change _ :: _ :: _ :: Token.sign '[' :: lex [] (Nat.toDigits 10 id ++ ']' :: ')' :: rest) = _
  rw [lex_word (isWord_digits id) (ends_cons (by decide))]
  rfl

/-- A call is read as it stands, with the number of its register. -/
theorem readFields_getText (htable : IsWord a.1) (hnone : names.tokens.lookup a.1 = none)
    (hkey : IsWord a.2) (hid : (names.tokens.lookup a.2).isSome)
    (hplain : ∀ w ∈ [tablesWord, getWord], names.tokens.lookup w = none) :
    readFields names (getText a ++ rest) = getTokens (names.access a) ++ readFields names rest := by
  obtain ⟨id, hid⟩ := Option.isSome_iff_exists.1 hid
  have htext : getText a ++ rest = tablesWord ++ '.' :: (a.1 ++ '-' :: '>' ::
      (getWord ++ '(' :: (a.2 ++ ')' :: rest))) := by
    simp [getText]
  have hcall : readFields names ('-' :: '>' :: (getWord ++ '(' :: (a.2 ++ ')' :: rest))) =
      .arrow :: .word getWord :: .sign '(' :: .word tagsWord :: .arrow :: .word mapWord ::
        .sign '[' :: .word (Nat.toDigits 10 id) :: .sign ']' :: .sign ')' ::
          readFields names rest := by
    have harrow : ∀ l, readFields names ('-' :: '>' :: l) = .arrow :: readFields names l := by
      intro l
      rw [readFields, replaceTokens_sign (by decide), replaceTokens_sign (by decide)]
      rfl
    rw [harrow, readFields_word (by decide) (hplain _ (by simp)) (ends_cons (by decide)),
      readFields_sign (by decide), readFields, replaceTokens_word hkey.2 (ends_cons (by decide)),
      replaceTokens_sign (by decide), onTokenMatch, hid, Option.map_some, Option.getD_some,
      lex_register]
    rfl
  rw [htext, readFields_word (by decide) (hplain _ (by simp)) (ends_cons (by decide)),
    readFields_sign (by decide), readFields_word htable hnone (ends_cons (by decide)), hcall]
  simp [getTokens, Names.access, hid]

end Fields

/-! ## Texts with lookups -/

/-- A text before which a word ends and is not called. -/
def Loose (rest : List Char) : Prop := Ends rest ∧ ¬ Calls rest

theorem loose_nil : Loose [] := ⟨ends_nil, not_calls_nil⟩

theorem loose_cons (hc : isWord c = false) (hne : c ≠ '(') : Loose (c :: rest) :=
  ⟨ends_cons hc, not_calls_of_ne hne⟩

theorem loose_open (h : ¬ Closes rest) : Loose ('(' :: rest) := by
  refine ⟨ends_cons (by decide), ?_⟩
  rintro ⟨r, hr, hcloses⟩
  exact h ((List.cons.inj hr).2 ▸ hcloses)

section Texts

variable {names : Names} {looks : List Access}

/-- What is read of a text behind the loop over the pieces. -/
def readText (names : Names) (looks : List Access) (l : List Char) : List Token :=
  readFields names ((tabRegex names.tables).sub (onTableMatch looks) l)

theorem ends_sub (h : Loose rest) :
    Ends ((tabRegex names.tables).sub (onTableMatch looks) rest) := by
  cases rest with
  | nil => exact ends_nil
  | cons c rest =>
    rw [sub_sign names.tableWord (h.1 c rfl) fun _ => h.2]
    exact ends_cons (h.1 c rfl)

theorem readText_word (hw : IsWord w) (hnone : names.tokens.lookup w = none) (hrest : Loose rest) :
    readText names looks (w ++ rest) = .word w :: readText names looks rest := by
  rw [readText, sub_word names.tableWord hw.2 hrest.1 fun h => absurd h hrest.2,
    readFields_word hw hnone (ends_sub hrest), readText]

theorem readText_blank : readText names looks (' ' :: rest) = readText names looks rest := by
  rw [readText, sub_sign names.tableWord (by decide) fun _ => not_calls_of_ne (by decide),
    readFields_blank, readText]

theorem readText_sign (hc : c ∈ signs) (hne : c ≠ '(') :
    readText names looks (c :: rest) = .sign c :: readText names looks rest := by
  rw [readText, sub_sign names.tableWord (isWord_signs c hc) fun _ => not_calls_of_ne hne,
    readFields_sign hc, readText]

theorem readText_open (h : ¬ Closes rest) :
    readText names looks ('(' :: rest) = .sign '(' :: readText names looks rest := by
  rw [readText, sub_sign names.tableWord (by decide) fun _ => (loose_open h).2,
    readFields_sign (by decide), readText]

theorem readText_arith (o : Arith) : readText names looks (o.char :: ' ' :: rest) =
    .sign o.char :: readText names looks rest := by
  have hchar : isWord o.char = false ∧ o.char ≠ '(' := by
    cases o <;> decide
  rw [readText, sub_sign names.tableWord hchar.1 fun _ => not_calls_of_ne hchar.2,
    sub_sign names.tableWord (by decide) fun _ => not_calls_of_ne (by decide), readFields_arith,
    readText]

theorem readText_rel (r : Rel) : readText names looks (' ' :: (r.text ++ ' ' :: rest)) =
    .rel r :: readText names looks rest := by
  have hrel : ∀ l, (tabRegex names.tables).sub (onTableMatch looks) (r.text ++ ' ' :: l) =
      r.text ++ ' ' :: (tabRegex names.tables).sub (onTableMatch looks) l := by
    have hsign : ∀ c l, isWord c = false → c ≠ '(' →
        (tabRegex names.tables).sub (onTableMatch looks) (c :: l) =
          c :: (tabRegex names.tables).sub (onTableMatch looks) l := fun c l hc hne =>
      sub_sign names.tableWord hc fun _ => not_calls_of_ne hne
    intro l
    cases r <;> simp [Rel.text, hsign, isWord]
  rw [readText_blank, readText, hrel, readFields_rel, readText]

/-- A declared table and a field that are not called like anything else. -/
structure Proper (names : Names) (a : Access) : Prop where
  valid : ValidAccess names a
  plainTable : names.tokens.lookup a.1 = none
  plainWords : ∀ w ∈ [tablesWord, getWord], names.tokens.lookup w = none

theorem Proper.readFields (h : Proper names a) :
    readFields names (getText a ++ rest) = getTokens (names.access a) ++ readFields names rest :=
  readFields_getText (names.tableWord _ h.valid.1) h.plainTable h.valid.2.1 h.valid.2.2
    h.plainWords

theorem readText_look (h : Proper names a) : readText names looks (lookText a ++ rest) =
    (if a ∈ looks then [.sign '*'] else []) ++
      (getTokens (names.access a) ++ readText names looks rest) := by
  have hsub : (tabRegex names.tables).sub (onTableMatch looks) (lookText a ++ rest) =
      onTableMatch looks a ++ (tabRegex names.tables).sub (onTableMatch looks) rest := by
    rw [sub, cut_look names.tableWord h.valid.1 h.valid.2.1]
    rfl
  rw [readText, hsub, onTableMatch]
  split_ifs
  · rw [List.cons_append, readFields_sign (by decide), h.readFields]
    rfl
  · exact h.readFields

theorem readText_protector (h : Proper names a) (hget : ∀ t ∈ names.tables, ¬ t <:+ getWord)
    (hand : names.tokens.lookup andWord = none) : readText names looks (protector a ++ rest) =
      getTokens (names.access a) ++ .word andWord :: readText names looks rest := by
  have hrest : readText names looks (' ' :: (andWord ++ ' ' :: rest)) =
      .word andWord :: readText names looks rest := by
    rw [readText_blank, readText_word (by decide) hand (loose_cons (by decide) (by decide)),
      readText_blank]
  have htext : protector a ++ rest = getText a ++ ' ' :: (andWord ++ ' ' :: rest) := by
    simp [protector]
  rw [htext, readText, sub_getText names.tableWord h.valid.1 h.valid.2.1 hget, h.readFields,
    ← hrest, readText]

/-- The lookups in a text. -/
def found (names : Names) (l : List Char) : List Access := (tabRegex names.tables).findAll l

theorem found_sign (hc : isWord c = false) (hne : c ≠ '(') :
    found names (c :: rest) = found names rest :=
  findAll_cons (tabRegex_sign names.tableWord hc fun _ => not_calls_of_ne hne)

theorem found_open (h : ¬ Closes rest) : found names ('(' :: rest) = found names rest :=
  findAll_cons (tabRegex_sign names.tableWord (by decide) fun _ => (loose_open h).2)

theorem found_word (hw : IsWord w) (hrest : Loose rest) :
    found names (w ++ rest) = found names rest := by
  rw [found, findAll_eq_cut, cut_word names.tableWord hw.2 hrest.1 fun h => absurd h hrest.2,
    List.filterMap_append, ← findAll_eq_cut, found]
  simp [List.filterMap_map]

theorem found_rel (r : Rel) : found names (' ' :: (r.text ++ ' ' :: rest)) = found names rest := by
  have hsign : ∀ c l, isWord c = false → c ≠ '(' → found names (c :: l) = found names l :=
    fun c l hc hne => found_sign hc hne
  cases r <;> simp [Rel.text, hsign, isWord]

theorem found_look (h : ValidAccess names a) :
    found names (lookText a ++ rest) = a :: found names rest := by
  rw [found, findAll_eq_cut, cut_look names.tableWord h.1 h.2.1, found, findAll_eq_cut]
  rfl

theorem not_closes_look (h : ValidAccess names a) : ¬ Closes (lookText a ++ rest) := by
  rw [lookText, List.append_assoc, List.cons_append]
  exact not_closes (names.tableWord _ h.1).2 (by decide) (by decide)

/-! ## Operands -/

theorem Literal.read {l : Literal} (h : l.Valid names) (hrest : Loose rest) :
    readText names looks (l.text ++ rest) = l.tokens ++ readText names looks rest := by
  cases l with
  | word w => exact readText_word h.1 h.2.2 hrest
  | decimal w v =>
    rw [Literal.text, List.append_assoc, List.cons_append,
      readText_word h.1.1 h.1.2.2 (loose_cons (by decide) (by decide)),
      readText_sign (by decide) (by decide), readText_word h.2.1 h.2.2.2 hrest]
    rfl
  | element w v =>
    rw [Literal.text, List.append_assoc, List.cons_append, List.append_assoc, List.singleton_append,
      readText_word h.1.1 h.1.2.2 (loose_cons (by decide) (by decide)),
      readText_sign (by decide) (by decide),
      readText_word h.2.1 h.2.2.2 (loose_cons (by decide) (by decide)),
      readText_sign (by decide) (by decide)]
    rfl

theorem Literal.found {l : Literal} (h : l.Valid names) (hrest : Loose rest) :
    found names (l.text ++ rest) = found names rest := by
  cases l with
  | word w => exact found_word h.1 hrest
  | decimal w v =>
    rw [Literal.text, List.append_assoc, List.cons_append,
      found_word h.1.1 (loose_cons (by decide) (by decide)),
      found_sign (by decide) (by decide), found_word h.2.1 hrest]
  | element w v =>
    rw [Literal.text, List.append_assoc, List.cons_append, List.append_assoc, List.singleton_append,
      found_word h.1.1 (loose_cons (by decide) (by decide)),
      found_sign (by decide) (by decide), found_word h.2.1 (loose_cons (by decide) (by decide)),
      found_sign (by decide) (by decide)]

/-- A factor that a comparison can have: every lookup in it is followed. -/
def Factor.Fit (names : Names) (looks : List Access) (f : Factor) : Prop :=
  f.Valid names ∧ ∀ t ∈ f.looks, t ∈ looks ∧ Proper names t

theorem Factor.Fit.read {f : Factor} (h : f.Fit names looks) (hrest : Loose rest) :
    readText names looks (f.text ++ rest) =
      (f.map names.access).tokens ++ readText names looks rest := by
  cases f with
  | literal l => exact Literal.read h.1 hrest
  | look t =>
    obtain ⟨hmem, hproper⟩ := h.2 t (List.mem_singleton_self t)
    rw [Factor.text, readText_look hproper, if_pos hmem]
    rfl

theorem Factor.found {f : Factor} (h : f.Valid names) (hrest : Loose rest) :
    found names (f.text ++ rest) = f.looks ++ found names rest := by
  cases f with
  | literal l => exact Literal.found h hrest
  | look t => exact found_look h

/-- The text of what follows the first factor. -/
def moreText (fs : List (Arith × Factor)) : List Char :=
  fs.flatMap fun f => ' ' :: f.1.char :: ' ' :: f.2.text

theorem loose_moreText (hrest : Loose rest) : ∀ fs, Loose (moreText fs ++ rest)
  | [] => hrest
  | _ :: _ => loose_cons (by decide) (by decide)

theorem read_moreText (hrest : Loose rest) : ∀ {fs : List (Arith × Factor)},
    (∀ f ∈ fs, f.2.Fit names looks) →
    readText names looks (moreText fs ++ rest) =
      (fs.flatMap fun f => .sign f.1.char :: (f.2.map names.access).tokens) ++
        readText names looks rest
  | [], _ => rfl
  | (o, f) :: fs, h => by
    have htext : moreText ((o, f) :: fs) ++ rest =
        ' ' :: o.char :: ' ' :: (f.text ++ (moreText fs ++ rest)) := by
      simp [moreText]
    rw [htext, readText_blank, readText_arith,
      Factor.Fit.read (h (o, f) List.mem_cons_self) (loose_moreText hrest fs),
      read_moreText hrest fun x hx => h x (List.mem_cons_of_mem _ hx)]
    simp

theorem found_moreText (hrest : Loose rest) : ∀ {fs : List (Arith × Factor)},
    (∀ f ∈ fs, f.2.Valid names) →
    found names (moreText fs ++ rest) = (fs.flatMap fun f => f.2.looks) ++ found names rest
  | [], _ => rfl
  | (o, f) :: fs, h => by
    have hchar : isWord o.char = false ∧ o.char ≠ '(' := by
      cases o <;> decide
    have htext : moreText ((o, f) :: fs) ++ rest =
        ' ' :: o.char :: ' ' :: (f.text ++ (moreText fs ++ rest)) := by
      simp [moreText]
    rw [htext, found_sign (by decide) (by decide), found_sign hchar.1 hchar.2,
      found_sign (by decide) (by decide),
      Factor.found (h (o, f) List.mem_cons_self) (loose_moreText hrest fs),
      found_moreText hrest fun x hx => h x (List.mem_cons_of_mem _ hx)]
    simp

/-- An operand that a comparison can have. -/
def Operand.Fit (names : Names) (looks : List Access) (x : Operand) : Prop :=
  x.Valid names ∧ ∀ t ∈ x.looks, t ∈ looks ∧ Proper names t

theorem Operand.Fit.factors {x : Operand} (h : x.Fit names looks) :
    x.first.Fit names looks ∧ ∀ f ∈ x.more, f.2.Fit names looks :=
  ⟨⟨h.1.1, fun t ht => h.2 t (List.mem_append_left _ ht)⟩, fun f hf => ⟨h.1.2 f hf, fun t ht =>
    h.2 t (List.mem_append_right _ (List.mem_flatMap.2 ⟨f, hf, ht⟩))⟩⟩

theorem Operand.Fit.read {x : Operand} (h : x.Fit names looks) (hrest : Loose rest) :
    readText names looks (x.text ++ rest) =
      (x.map names.access).tokens ++ readText names looks rest := by
  have htext : x.text ++ rest = x.first.text ++ (moreText x.more ++ rest) := by
    simp [Operand.text, moreText]
  rw [htext, h.factors.1.read (loose_moreText hrest _), read_moreText hrest h.factors.2]
  simp [Operand.tokens, Operand.map, List.flatMap_map]

theorem Operand.found {x : Operand} (h : x.Valid names) (hrest : Loose rest) :
    found names (x.text ++ rest) = x.looks ++ found names rest := by
  have htext : x.text ++ rest = x.first.text ++ (moreText x.more ++ rest) := by
    simp [Operand.text, moreText]
  rw [htext, Factor.found h.1 (loose_moreText hrest _), found_moreText hrest h.2]
  simp [Operand.looks]

/-- A bracket before an operand is not that of a call. -/
theorem Factor.not_closes {f : Factor} (h : f.Valid names) (hc : isWord c = false) (hne : c ≠ ')') :
    ¬ Closes (f.text ++ c :: rest) := by
  cases f with
  | literal l =>
    cases l with
    | word w => exact Conditions.not_closes h.1.2 hc hne
    | decimal w v =>
      rw [Factor.text, Literal.text, List.append_assoc, List.cons_append]
      exact Conditions.not_closes h.1.1.2 (by decide) (by decide)
    | element w v =>
      rw [Factor.text, Literal.text, List.append_assoc, List.cons_append]
      exact Conditions.not_closes h.1.1.2 (by decide) (by decide)
  | look t => exact not_closes_look h

theorem Operand.not_closes {x : Operand} (h : x.Valid names) :
    ¬ Closes (x.text ++ ' ' :: rest) := by
  obtain ⟨f, fs⟩ := x
  cases fs with
  | nil =>
    rw [Operand.text, List.flatMap_nil, List.append_nil]
    exact Factor.not_closes h.1 (by decide) (by decide)
  | cons g fs =>
    rw [Operand.text, List.flatMap_cons, List.append_assoc]
    exact Factor.not_closes h.1 (by decide) (by decide)

end Texts

end DStreamon.Conditions
