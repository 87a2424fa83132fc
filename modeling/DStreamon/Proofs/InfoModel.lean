import DStreamon.InfoModel
import DStreamon.Lib.Ends

/-!
# Specifications read back

What is written for an element is read as that element, as long as its name has none of the
characters that something else begins with.  Elements that are added from their specifications are
found under their numbers and their names, the last one of each.
-/

namespace DStreamon.Ipfix

namespace IESpec

open IStream Parsing

/-- A character that goes into the name. -/
def Plain (c : Char) : Prop := c ≠ '(' ∧ c ≠ '<' ∧ c ≠ '[' ∧ c ≠ '{'

instance (c : Char) : Decidable (Plain c) := inferInstanceAs (Decidable (_ ∧ _ ∧ _ ∧ _))

variable {name ietname text rest acc : List Char} {number pen size fuel : ℕ} {c : Char}

/-! ## Rounds of the loop -/

theorem run_succ {p q : Parsing} (h : p.iestream.eof = false) (hround : p.round = .ok q) :
    p.run (fuel + 1) = q.run fuel := by
  rw [Parsing.run, h, if_neg (by simp), hround]

theorem run_name : ∀ {name acc : List Char}, (∀ c ∈ name, Plain c) →
    Parsing.run (name.length + fuel)
        ⟨.ofList (name ++ rest), acc, number, pen, ietname, text, size⟩ =
      Parsing.run fuel ⟨.ofList rest, acc ++ name, number, pen, ietname, text, size⟩
  | [], acc, _ => by simp
  | c :: name, acc, h => by
    obtain ⟨⟨hparen, hangle, hbracket, hbrace⟩, hname⟩ := List.forall_mem_cons.1 h
    have hround :
        (Parsing.mk (.ofList (c :: (name ++ rest))) acc number pen ietname text size).round =
          .ok ⟨.ofList (name ++ rest), acc ++ [c], number, pen, ietname, text, size⟩ := by
      simp [Parsing.round, parseName, hparen, hangle, hbracket, hbrace]
    have hlen : (c :: name).length + fuel = name.length + fuel + 1 := by
      rw [List.length_cons]
      omega
    rw [List.cons_append, hlen, run_succ rfl hround, run_name hname, List.append_assoc,
      List.singleton_append]

theorem readNumber_toDigits {n : ℕ} (hn : n < 2 ^ 32) (hc : c.isDigit = false) :
    readNumber ⟨.ofList (Nat.toDigits 10 n ++ c :: rest), name, number, pen, ietname, text, size⟩ =
      ⟨.ofList (c :: rest), name, n, pen, ietname, text, size⟩ := by
  rw [readNumber, readUnsigned_toDigits hn hc]
  rfl

theorem ignore_cons (hc : isSpace c = false) :
    ignore ⟨.ofList (c :: rest), name, number, pen, ietname, text, size⟩ =
      ⟨.ofList rest, name, number, pen, ietname, text, size⟩ := by
  rw [ignore, skipChar_cons hc]

theorem readStroke_stroke : readStroke ⟨.ofList ('/' :: rest), name, number, pen, ietname, text,
      size⟩ =
    readNumber (ignore ⟨.ofList ('/' :: rest), name, number, number, ietname, text, size⟩) := rfl

theorem readStroke_paren : readStroke ⟨.ofList (')' :: rest), name, number, pen, ietname, text,
      size⟩ = ⟨.ofList (')' :: rest), name, number, pen, ietname, text, size⟩ := rfl

/-- The number, with that of the enterprise before it if it has one. -/
theorem parseNumber_paren (p : UInt32) (n : UInt16) :
    parseNumber ⟨.ofList ('(' :: (penPart p ++ (Nat.toDigits 10 n.toNat ++ ')' :: rest))), name, 0,
      0, ietname, text, size⟩ =
      ⟨.ofList rest, name, n.toNat, p.toNat, ietname, text, size⟩ := by
  have hn : n.toNat < 2 ^ 32 := n.toNat_lt.trans (by decide)
  rw [parseNumber, ignore_cons (by decide), penPart]
  split_ifs with hpen
  · rw [List.append_assoc, List.singleton_append, readNumber_toDigits p.toNat_lt (by decide),
      readStroke_stroke, ignore_cons (by decide), readNumber_toDigits hn (by decide),
      ignore_cons (by decide)]
  · rw [not_not] at hpen
    rw [List.nil_append, readNumber_toDigits hn (by decide), readStroke_paren,
      ignore_cons (by decide), hpen]
    rfl

theorem parseType_angle {iet : List Char} (hiet : '>' ∉ iet) (hne : iet ≠ []) :
    parseType ⟨.ofList ('<' :: (iet ++ '>' :: rest)), name, number, pen, [], text, size⟩ =
      ⟨.ofList rest, name, number, pen, iet, text, size⟩ := by
  rw [parseType, ignore_cons (by decide)]
  dsimp only
  rw [getUntil_append hiet hne, List.nil_append, ignore_cons (by decide)]

theorem lexicalCast_toDigits {w n : ℕ} (hn : n < 2 ^ w) :
    lexicalCast w (Nat.toDigits 10 n) = some n := by
  have hdigits : ∀ c ∈ Nat.toDigits 10 n, c.isDigit = true := fun c hc =>
    Nat.isDigit_of_mem_toDigits (by decide) (by decide) hc
  obtain ⟨e, es, he⟩ := List.exists_cons_of_ne_nil (Nat.toDigits_ne_nil (n := n) (b := 10))
  have hsign : IStream.sign (Nat.toDigits 10 n) = (false, Nat.toDigits 10 n) := by
    rw [he, sign_of_isDigit (hdigits e (by rw [he]; exact List.mem_cons_self))]
  rw [lexicalCast, hsign]
  dsimp only
  rw [if_pos (List.all_eq_true.2 hdigits), unsignedOf_toDigits hn]

theorem parseSize_bracket (n : UInt16) :
    parseSize ⟨.ofList ('[' :: (Nat.toDigits 10 n.toNat ++ [']'])), name, number, pen, ietname, [],
      size⟩ =
      .ok ⟨.ofList [], name, number, pen, ietname, Nat.toDigits 10 n.toNat, n.toNat⟩ := by
  have hdigits : ∀ c ∈ Nat.toDigits 10 n.toNat, c.isDigit = true := fun c hc =>
    Nat.isDigit_of_mem_toDigits (by decide) (by decide) hc
  have hmem : ']' ∉ Nat.toDigits 10 n.toNat := fun h => absurd (hdigits _ h) (by decide)
  have hv : (Nat.toDigits 10 n.toNat).head? ≠ some 'v' := fun h =>
    absurd (hdigits _ (List.mem_of_head? h)) (by decide)
  rw [parseSize, ignore_cons (by decide)]
  dsimp only
  rw [getUntil_append hmem Nat.toDigits_ne_nil, List.nil_append, ignore_cons (by decide), if_neg hv,
    lexicalCast_toDigits n.toNat_lt]

/-! ## Whole specifications -/

theorem name_of_registered {iet : IEType} (h : iet ≠ .unknown) :
    '>' ∉ iet.name ∧ iet.name ≠ [] ∧ lookupIEType iet.name = some iet := by
  cases iet <;> first | exact absurd rfl h | decide +kernel

theorem run_paren : Parsing.run (fuel + 1) ⟨.ofList ('(' :: rest), name, number, pen, ietname, text,
      size⟩ =
    Parsing.run fuel
      (parseNumber ⟨.ofList ('(' :: rest), name, number, pen, ietname, text, size⟩) := rfl

theorem run_angle : Parsing.run (fuel + 1) ⟨.ofList ('<' :: rest), name, number, pen, ietname, text,
      size⟩ =
    Parsing.run fuel (parseType ⟨.ofList ('<' :: rest), name, number, pen, ietname, text, size⟩) :=
  rfl

theorem run_bracket (n : UInt16) : Parsing.run (fuel + 1)
      ⟨.ofList ('[' :: (Nat.toDigits 10 n.toNat ++ [']'])), name, number, pen, ietname, [], size⟩ =
    Parsing.run fuel
      ⟨.ofList [], name, number, pen, ietname, Nat.toDigits 10 n.toNat, n.toNat⟩ :=
  run_succ rfl (parseSize_bracket n)

/-- One more round meets the end. -/
theorem run_end (fuel : ℕ) {p : Parsing} (h : p.iestream = .ofList []) :
    ∃ s, p.run (fuel + 1) = .ok (some { p with iestream := s }) := by
  obtain ⟨s, name, number, pen, ietname, text, size⟩ := p
  obtain rfl : s = .ofList [] := h
  refine ⟨⟨[], true, true⟩, ?_⟩
  rw [run_succ (q := ⟨⟨[], true, true⟩, name, number, pen, ietname, text, size⟩) rfl rfl]
  cases fuel <;> rfl

/-- What was written for an element is read as that element. -/
theorem parseIESpec_toIESpec {ie : InfoElement} (hname : ∀ c ∈ ie.name.toList, Plain c)
    (hiet : ie.ietype ≠ .unknown) (hfuel : (toIESpec ie).length ≤ fuel) :
    parseIESpec fuel (toIESpec ie) =
      .ok (some ⟨ie.name.toList, ie.pen, ie.number, some ie.ietype, ie.len⟩) := by
  obtain ⟨hangle, hne, hlookup⟩ := name_of_registered hiet
  have hlen : ie.name.toList.length + 4 ≤ (toIESpec ie).length := by
    simp only [toIESpec, List.length_append, List.length_cons]
    omega
  obtain ⟨more, rfl⟩ : ∃ more, fuel = ie.name.toList.length + (more + 1 + 1 + 1 + 1) :=
    ⟨fuel - (ie.name.toList.length + 4), by omega⟩
  rw [parseIESpec, Parsing.new, toIESpec, run_name hname, List.nil_append, run_paren,
    parseNumber_paren, run_angle, parseType_angle hangle hne, run_bracket]
  obtain ⟨s, hs⟩ := run_end more (p := ⟨.ofList [], ie.name.toList, ie.number.toNat,
    ie.pen.toNat, ie.ietype.name, Nat.toDigits 10 ie.len.toNat, ie.len.toNat⟩) rfl
  rw [hs]
  simp [Except.map, Parsing.spec, hlookup]

end IESpec

/-! ## Registries -/

namespace InfoModel

/-- The element with a number, that of its enterprise before it. -/
def find (model : InfoModel) (key : UInt32 × UInt16) : Option InfoElement :=
  if key.1 ≠ 0 then (model.penRegistry key.1).bind fun numbers => numbers key.2
  else model.ianaRegistry key.2

theorem lookupIE_eq (model : InfoModel) (pen : UInt32) (number len : UInt16) :
    model.lookupIE pen number len = (model.find (pen, number)).map fun ie => ie.forLen len := by
  rw [lookupIE, find]
  split_ifs
  · rcases model.penRegistry pen with _ | numbers <;> rfl
  · rfl

/-- Elements are registered under their own numbers. -/
def Filed (model : InfoModel) : Prop := ∀ key ie, model.find key = some ie → ie.key = key

end InfoModel

namespace Registry

variable {m : Registry} {ie : InfoElement} {fuel : ℕ}

@[simp] theorem key_forLen (ie : InfoElement) (len : UInt16) : (ie.forLen len).key = ie.key := by
  rw [InfoElement.forLen]
  split_ifs <;> rfl

theorem find_register (ie : InfoElement) (m : Registry) :
    (m.register ie).find = Function.update m.find ie.key (some ie) := by
  funext ⟨pen, number⟩
  have hkey : (pen, number) = ie.key ↔ pen = ie.pen ∧ number = ie.number := Prod.mk.injEq .. ▸ .rfl
  simp only [Function.update_apply, hkey]
  rw [register, InfoModel.find, InfoModel.find]
  by_cases hie : ie.pen ≠ 0
  · rw [if_pos hie]
    dsimp only
    by_cases hpen : pen = ie.pen
    · subst hpen
      rw [if_pos hie, if_pos hie, Function.update_self, Option.bind_some, Function.update_apply]
      simp only [true_and]
      split_ifs
      · rfl
      · rcases m.penRegistry ie.pen with _ | numbers <;> rfl
    · rw [Function.update_of_ne hpen]
      simp only [hpen, false_and, if_false]
  · rw [if_neg hie]
    rw [not_not] at hie
    dsimp only
    rw [Function.update_apply, hie]
    by_cases hpen : pen = 0 <;> simp [hpen]

@[simp] theorem nameRegistry_register (ie : InfoElement) (m : Registry) :
    (m.register ie).nameRegistry = Function.update m.nameRegistry ie.name.toList (some ie) := by
  rw [register]
  split_ifs <;> rfl

theorem filed_new : new.Filed := fun key ie h => by
  simp [InfoModel.find, new] at h

theorem filed_register (h : m.Filed) (ie : InfoElement) : (m.register ie).Filed := by
  intro key ie' hfind
  rw [find_register, Function.update_apply] at hfind
  split_ifs at hfind with hkey
  · cases hfind
    exact hkey.symm
  · exact h key ie' hfind

/-- A model that is filled by `add`, also where that threw in the end. -/
theorem filed_of_adds {ies : List InfoElement} {r : Except Error Unit}
    (h : (Attempt.forEach add ies).run new = (r, m)) : m.Filed := by
  have hends : (Attempt.forEach add ies).Ends new (fun _ m => m.Filed) fun _ m => m.Filed := by
    refine Attempt.ends_forEach (fun ie _ m hm => ?_) filed_new
    rw [add]
    split_ifs
    · exact Attempt.ends_throw hm
    · exact Attempt.ends_modify (filed_register hm ie)
  rcases r with er | _
  · exact hends.of_error h
  · exact hends.of_ok h

/-- What was written for it can be added. -/
structure Specifiable (ie : InfoElement) : Prop where
  name : ie.name ≠ ""
  plain : ∀ c ∈ ie.name.toList, IESpec.Plain c
  number : ie.number ≠ 0
  ietype : ie.ietype ≠ .unknown

theorem run_addSpec (h : Specifiable ie) (hfuel : (IESpec.toIESpec ie).length ≤ fuel) :
    (addSpec fuel (IESpec.toIESpec ie)).run m = (.ok (some ()), m.register ie) := by
  have hvalid : ¬ (ie.name = "" ∨ ie.number = 0 ∨ ie.ietype = .unknown) := by
    simp [h.name, h.number, h.ietype]
  rw [addSpec, IESpec.parseIESpec_toIESpec h.plain h.ietype hfuel]
  dsimp only
  rw [String.ofList_toList, add, if_neg hvalid]
  rfl

/-- Specifications that are added one after the other. -/
def addSpecs (fuel : ℕ) (specs : List (List Char)) : Attempt Error Registry Unit :=
  Attempt.forEach (fun spec => do let _ ← addSpec fuel spec) specs

def registerAll (ies : List InfoElement) (m : Registry) : Registry :=
  ies.foldl (fun m ie => m.register ie) m

theorem run_addSpecs : ∀ {ies : List InfoElement} {m : Registry}, (∀ ie ∈ ies, Specifiable ie) →
    (∀ ie ∈ ies, (IESpec.toIESpec ie).length ≤ fuel) →
    (addSpecs fuel (ies.map IESpec.toIESpec)).run m = (.ok (), m.registerAll ies)
  | [], _, _, _ => rfl
  | ie :: ies, m, h, hfuel => by
    obtain ⟨hie, hies⟩ := List.forall_mem_cons.1 h
    obtain ⟨hlen, hlens⟩ := List.forall_mem_cons.1 hfuel
    have hadd : (addSpec fuel (IESpec.toIESpec ie) >>= fun _ => pure ()).run m =
        (.ok (), m.register ie) := by
      rw [Attempt.run_bind_of_ok (run_addSpec hie hlen)]
      rfl
    rw [addSpecs, List.map_cons, Attempt.forEach_cons, Attempt.run_bind_of_ok hadd]
    exact run_addSpecs hies hlens

/-- The last element of those that meet `p`. -/
def lastThat (p : InfoElement → Bool) (ies : List InfoElement) : Option InfoElement :=
  ies.reverse.find? p

theorem lastThat_cons (p : InfoElement → Bool) (ie : InfoElement) (ies : List InfoElement) :
    lastThat p (ie :: ies) = (lastThat p ies).or (if p ie then some ie else none) := by
  rw [lastThat, List.reverse_cons, List.find?_append, List.find?_singleton, lastThat]

theorem find_registerAll (key : UInt32 × UInt16) : ∀ (ies : List InfoElement) (m : Registry),
    (m.registerAll ies).find key = (lastThat (fun ie => ie.key = key) ies).or (m.find key)
  | [], m => rfl
  | ie :: ies, m => by
    rw [registerAll, List.foldl_cons]
    change ((m.register ie).registerAll ies).find key = _
    rw [find_registerAll key ies, find_register, Function.update_apply, lastThat_cons,
      Option.or_assoc]
    by_cases hkey : ie.key = key <;> simp [hkey, Ne.symm]

theorem nameRegistry_registerAll (name : List Char) : ∀ (ies : List InfoElement) (m : Registry),
    (m.registerAll ies).nameRegistry name =
      (lastThat (fun ie => ie.name.toList = name) ies).or (m.nameRegistry name)
  | [], m => rfl
  | ie :: ies, m => by
    rw [registerAll, List.foldl_cons]
    change ((m.register ie).registerAll ies).nameRegistry name = _
    rw [nameRegistry_registerAll name ies, nameRegistry_register, Function.update_apply,
      lastThat_cons, Option.or_assoc]
    by_cases hname : ie.name.toList = name <;> simp [hname, Ne.symm]

/-- Elements added from what is written for them are found, the last one of each number and of each
name, at any length that is asked for. -/
theorem specs_are_found (ies : List InfoElement) (h : ∀ ie ∈ ies, Specifiable ie)
    (hfuel : ∀ ie ∈ ies, (IESpec.toIESpec ie).length ≤ fuel) (m : Registry) :
    ∃ m', (addSpecs fuel (ies.map IESpec.toIESpec)).run m = (.ok (), m') ∧
      (∀ pen number len, m'.lookupIE pen number len =
        ((lastThat (fun ie => ie.key = (pen, number)) ies).map fun ie => ie.forLen len).or
          (m.lookupIE pen number len)) ∧
      ∀ spec, spec.number = 0 → spec.name ≠ [] → m'.lookupSpec spec =
        .ok (((lastThat (fun ie => ie.name.toList = spec.name) ies).or
          (m.nameRegistry spec.name)).map fun ie => ie.forLen spec.len) := by
  refine ⟨m.registerAll ies, run_addSpecs h hfuel, fun pen number len => ?_, fun spec hnum hname =>
    ?_⟩
  · rw [InfoModel.lookupIE_eq, InfoModel.lookupIE_eq, find_registerAll]
    cases lastThat (fun ie => ie.key = (pen, number)) ies <;> rfl
  · rw [lookupSpec, if_neg (by simpa using hnum), if_neg hname, nameRegistry_registerAll]

/-- Two counters of octets by one name, two elements by one number, and another one. -/
def overwriting : List InfoElement :=
  [⟨"octets", 0, 1, .unsigned64, 8⟩, ⟨"packets", 0, 2, .unsigned64, 8⟩,
    ⟨"octets", 0, 85, .unsigned64, 8⟩, ⟨"ports", 0, 1, .unsigned16, 2⟩]

/-- Added to a model without elements, and asked for by number and by name. -/
theorem specs_are_found_overwriting : ∃ m',
    (addSpecs 60 (overwriting.map IESpec.toIESpec)).run .new = (.ok (), m') ∧
    m'.lookupIE 0 1 0 = some ⟨"ports", 0, 1, .unsigned16, 2⟩ ∧
    m'.lookupIE 0 2 4 = some ⟨"packets", 0, 2, .unsigned64, 4⟩ ∧
    m'.lookupSpec ⟨['o', 'c', 't', 'e', 't', 's'], 0, 0, none, 4⟩ =
      .ok (some ⟨"octets", 0, 85, .unsigned64, 4⟩) := by
  have hplain : ∀ ie ∈ overwriting, ∀ c ∈ ie.name.toList, IESpec.Plain c :=
    @of_decide_eq_true _ (@List.decidableBAll _ _ (fun _ => List.decidableBAll _ _) _) (by decide)
  have hvalid : ∀ ie ∈ overwriting, ie.name ≠ "" ∧ ie.number ≠ 0 ∧ ie.ietype ≠ .unknown := by
    decide
  have hspecifiable : ∀ ie ∈ overwriting, Specifiable ie := fun ie hie =>
    ⟨(hvalid ie hie).1, hplain ie hie, (hvalid ie hie).2.1, (hvalid ie hie).2.2⟩
  have hfuel : ∀ ie ∈ overwriting, (IESpec.toIESpec ie).length ≤ 60 := by decide +kernel
  obtain ⟨m', hrun, hfound, hnamed⟩ := specs_are_found overwriting hspecifiable hfuel .new
  refine ⟨m', hrun, hfound 0 1 0, hfound 0 2 4, ?_⟩
  exact hnamed ⟨['o', 'c', 't', 'e', 't', 's'], 0, 0, none, 4⟩ rfl (by decide)

end Registry

end DStreamon.Ipfix
