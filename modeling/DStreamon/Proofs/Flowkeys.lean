import DStreamon.Flowkeys
import DStreamon.Proofs.Moin
import Mathlib.Data.List.Flatten
import Mathlib.Data.List.Perm.Basic

/-!
# Flow keys are numbered within bounds

Composite keys take the numbers after the greatest of a field, in the order they are first met.
Read back, a key's rule is as many places from the end as its number is from the last, and is made
of what its components were read as; a component that is no field was read as nothing and counts
as `0`.
-/

namespace DStreamon.Moin

open EventFactory (Keys addFields configureKeys)
open EventFactory.Keys (pieces)

/-! ## Composite names -/

/-- A name is its components with hyphens between. -/
structure Composed (name : String) (components : List String) : Prop where
  ne : components ≠ []
  plain : ∀ c ∈ components, '-' ∉ c.toList
  join : name.toList = ['-'].intercalate (components.map String.toList)

theorem pieces_plain : ∀ {cs piece : List Char}, '-' ∉ cs →
    pieces piece cs = [String.ofList (piece ++ cs)]
  | [], piece, _ => by simp [pieces]
  | c :: cs, piece, h => by
    obtain ⟨hc, hcs⟩ : '-' ≠ c ∧ '-' ∉ cs := by simpa using h
    rw [pieces, if_neg (Ne.symm hc), pieces_plain hcs]
    simp

theorem pieces_hyphen {rest : List Char} : ∀ {cs piece : List Char}, '-' ∉ cs →
    pieces piece (cs ++ '-' :: rest) = String.ofList (piece ++ cs) :: pieces [] rest
  | [], piece, _ => by simp [pieces]
  | c :: cs, piece, h => by
    obtain ⟨hc, hcs⟩ : '-' ≠ c ∧ '-' ∉ cs := by simpa using h
    rw [List.cons_append, pieces, if_neg (Ne.symm hc), pieces_hyphen hcs]
    simp

theorem pieces_intercalate : ∀ {components : List String}, components ≠ [] →
    (∀ c ∈ components, '-' ∉ c.toList) →
    pieces [] (['-'].intercalate (components.map String.toList)) = components
  | [c], _, h => by
    simp [pieces_plain (h c List.mem_cons_self)]
  | c :: c' :: rest, _, h => by
    have ih : pieces [] (['-'].intercalate ((c' :: rest).map String.toList)) = c' :: rest :=
      pieces_intercalate (by simp) fun d hd => h d (List.mem_cons_of_mem _ hd)
    rw [List.map_cons, List.map_cons, List.intercalate_cons_cons, List.append_assoc]
    rw [List.singleton_append, pieces_hyphen (h c List.mem_cons_self), ← List.map_cons, ih]
    simp

theorem pieces_ne : ∀ (cs piece : List Char), pieces piece cs ≠ []
  | [], _ => by simp [pieces]
  | c :: cs, piece => by
    rw [pieces]
    split_ifs
    · simp
    · exact pieces_ne _ _

theorem composed_of_pieces : ∀ (cs : List Char) {piece : List Char}, '-' ∉ piece →
    (∀ c ∈ pieces piece cs, '-' ∉ c.toList) ∧
      ['-'].intercalate ((pieces piece cs).map String.toList) = piece ++ cs
  | [], piece, h => by simp [pieces, h]
  | c :: cs, piece, h => by
    rw [pieces]
    split_ifs with hc
    · obtain ⟨hplain, hjoin⟩ := composed_of_pieces cs List.not_mem_nil
      refine ⟨by simpa [h] using hplain, ?_⟩
      obtain ⟨d, ds, hds⟩ := List.exists_cons_of_ne_nil (pieces_ne cs [])
      rw [hds] at hjoin ⊢
      rw [List.map_cons, List.map_cons, List.intercalate_cons_cons, ← List.map_cons, hjoin, hc]
      simp
    · have hpiece : '-' ∉ piece ++ [c] := by simpa [h] using Ne.symm hc
      obtain ⟨hplain, hjoin⟩ := composed_of_pieces cs hpiece
      exact ⟨hplain, by simpa using hjoin⟩

theorem composed_iff {name : String} {components : List String} :
    Composed name components ↔ components = pieces [] name.toList := by
  constructor
  · rintro ⟨hne, hplain, hjoin⟩
    rw [hjoin, pieces_intercalate hne hplain]
  · rintro rfl
    obtain ⟨hplain, hjoin⟩ := composed_of_pieces name.toList List.not_mem_nil
    exact ⟨pieces_ne _ _, hplain, hjoin.symm⟩

/-! ## Numbers of keys -/

/-- The `field` element of the name that comes last gives it its number. -/
def Document.Declared (doc : Document) (name : String) (id : ℤ) : Prop :=
  doc.fields.reverse.lookup name = some id

theorem get_new {fields : List (String × ℤ)} {name : String} :
    (Fields.new fields).get name =
      (fields.reverse.lookup name).or (if name = "null" ∨ name = "" then some (-1) else none) := by
  rw [Fields.get, Fields.new, List.lookup_append]
  by_cases hnull : name = "null"
  · simp [hnull]
  · by_cases hempty : name = ""
    · simp [hempty, List.lookup_cons]
    · have hnull' : (name == "null") = false := beq_false_of_ne hnull
      have hempty' : (name == "") = false := beq_false_of_ne hempty
      simp [List.lookup_cons, hnull, hempty, hnull', hempty']

theorem le_max_new {fields : List (String × ℤ)} :
    0 < (Fields.new fields).max ∧ ∀ f ∈ fields, f.2 < (Fields.new fields).max := by
  have hfold : ∀ (fs : List (String × ℤ)) (m : ℤ),
      m ≤ fs.foldl (fun m f => if m < f.2 then f.2 else m) m ∧
        ∀ f ∈ fs, f.2 ≤ fs.foldl (fun m f => if m < f.2 then f.2 else m) m := by
    intro fs
    induction fs with
    | nil => simp
    | cons f fs ih =>
      intro m
      obtain ⟨hle, hall⟩ := ih (if m < f.2 then f.2 else m)
      have hm : m ≤ (if m < f.2 then f.2 else m) ∧ f.2 ≤ (if m < f.2 then f.2 else m) := by
        split_ifs <;> omega
      refine ⟨hm.1.trans hle, fun g hg => ?_⟩
      rcases List.mem_cons.1 hg with rfl | hg
      · exact hm.2.trans hle
      · exact hall g hg
  obtain ⟨hle, hall⟩ := hfold fields 0
  exact ⟨Int.lt_add_one_of_le hle, fun f hf => Int.lt_add_one_of_le (hall f hf)⟩

/-- The tokens after some keys have been looked up. -/
structure Numbering (f : Fields) (keys : List String) (t : Tokens) : Prop where
  get : ∀ {name id}, t.fields.get name = some id ↔
    f.get name = some id ∨ ∃ i : ℕ, t.additionals[i]? = some name ∧ id = f.max + i
  max : t.fields.max = f.max + t.additionals.length
  nodup : t.additionals.Nodup
  mem : ∀ {name}, name ∈ t.additionals ↔ name ∈ keys ∧ f.get name = none

namespace Numbering

variable {f : Fields} {keys ks : List String} {t t' : Tokens} {key name : String} {id : ℤ}

theorem new (fields : List (String × ℤ)) : Numbering (.new fields) [] (.new fields) :=
  ⟨by simp [Tokens.new], by simp [Tokens.new], by simp [Tokens.new], by simp [Tokens.new]⟩

theorem isSome_iff (h : Numbering f keys t) :
    (t.fields.get name).isSome ↔ (f.get name).isSome ∨ name ∈ t.additionals := by
  simp only [Option.isSome_iff_exists, h.get]
  constructor
  · rintro ⟨id, hid | ⟨i, hi, -⟩⟩
    · exact .inl ⟨id, hid⟩
    · exact .inr (List.mem_of_getElem? hi)
  · rintro (⟨id, hid⟩ | hmem)
    · exact ⟨id, .inl hid⟩
    · obtain ⟨i, hi⟩ := List.getElem?_of_mem hmem
      exact ⟨_, .inr ⟨i, hi, rfl⟩⟩

theorem require (h : Numbering f keys t) (key : String) :
    Numbering f (keys ++ [key]) (t.require key) := by
  unfold Tokens.require
  split_ifs with hsome
  · refine ⟨h.get, h.max, h.nodup, fun {name} => ?_⟩
    rw [h.mem]
    have hkey : f.get key = none → key ∈ keys := fun hnone => by
      rcases h.isSome_iff.1 hsome with hf | hmem
      · simp [hnone] at hf
      · exact (h.mem.1 hmem).1
    constructor
    · rintro ⟨hmem, hnone⟩
      exact ⟨List.mem_append_left _ hmem, hnone⟩
    · rintro ⟨hmem, hnone⟩
      rcases List.mem_append.1 hmem with hmem | hmem
      · exact ⟨hmem, hnone⟩
      · obtain rfl : name = key := by simpa using hmem
        exact ⟨hkey hnone, hnone⟩
  · have hnot := fun hs => hsome (h.isSome_iff.2 hs)
    have hnone : f.get key = none := Option.not_isSome_iff_eq_none.1 fun hs => hnot (.inl hs)
    have hfresh : key ∉ t.additionals := fun hmem => hnot (.inr hmem)
    refine ⟨fun {name id} => ?_, ?_, ?_, fun {name} => ?_⟩
    · have hget : (t.fields.add key).get name =
          if name = key then some t.fields.max else t.fields.get name := by
        simp only [Fields.get, Fields.add, List.lookup_cons]
        by_cases hk : name = key
        · simp [hk]
        · rw [if_neg hk, beq_false_of_ne hk]
      rw [hget]
      by_cases hk : name = key
      · subst hk
        rw [if_pos rfl, h.max, hnone]
        constructor
        · rintro ⟨⟩
          exact .inr ⟨t.additionals.length, by simp, rfl⟩
        · rintro (hf | ⟨i, hi, rfl⟩)
          · cases hf
          · rw [List.getElem?_append] at hi
            split_ifs at hi with hlt
            · exact absurd (List.mem_of_getElem? hi) hfresh
            · have : i - t.additionals.length = 0 := by
                by_contra hne
                rw [List.getElem?_eq_none (by simp; omega)] at hi
                cases hi
              obtain rfl : i = t.additionals.length := by omega
              rfl
      · rw [if_neg hk, h.get]
        refine or_congr_right (exists_congr fun i => and_congr_left fun _ => ?_)
        rw [List.getElem?_append]
        split_ifs with hlt
        · rfl
        · rw [List.getElem?_eq_none (by omega)]
          rcases i - t.additionals.length with _ | n <;> simp [Ne.symm hk]
    · simp only [Fields.add, h.max, List.length_append, List.length_singleton]
      omega
    · exact List.nodup_append.2 ⟨h.nodup, by simp, by
        rintro a ha b hb rfl
        exact hfresh (by simpa [List.mem_singleton.1 hb] using ha)⟩
    · rw [List.mem_append, h.mem, List.mem_append, or_and_right]
      refine or_congr_right ?_
      rw [List.mem_singleton]
      exact ⟨fun hk => ⟨hk, hk ▸ hnone⟩, And.left⟩

theorem foldl (h : Numbering f keys t) :
    ∀ ks : List String, Numbering f (keys ++ ks) (ks.foldl Tokens.require t) := by
  intro ks
  induction ks generalizing keys t with
  | nil => simpa using h
  | cons k ks ih => simpa using ih (h.require k)

end Numbering

/-! ## What is generated -/

theorem Fields.get_require {f : Fields} {key name : String} {id : ℤ}
    (h : f.get name = some id) : (f.require key).get name = some id := by
  unfold Fields.require
  split_ifs with hkey
  · exact h
  · have hne : name ≠ key := by
      rintro rfl
      simp [h] at hkey
    simpa [Fields.get, Fields.add, List.lookup_cons, beq_false_of_ne hne] using h

theorem Fields.get_foldl {name : String} {id : ℤ} : ∀ (keys : List String) {f : Fields},
    f.get name = some id → (keys.foldl Fields.require f).get name = some id
  | [], _, h => h
  | _ :: keys, _, h => get_foldl keys (get_require h)

/-- A number of the tokens. -/
def Fields.HasId (f : Fields) (id : ℤ) : Prop := ∃ name, f.get name = some id

theorem Fields.HasId.foldl {f : Fields} {id : ℤ} (h : f.HasId id) (keys : List String) :
    (keys.foldl Fields.require f).HasId id :=
  h.imp fun _ hid => Fields.get_foldl keys hid

def MetricOp.keys (op : MetricOp) : List ℤ :=
  [op.vdFlowkeyGet, op.vdFlowkeySet, op.vmFlowkeyGet, op.vmFlowkeySet]

/-- What is generated for a `use-metric` element names a metric and keys there are. -/
structure UsedOf (metrics : List (String × ℕ)) (f : Fields) (u : UsedMetric) : Prop where
  metric : ∃ name, metrics.lookup name = some u.metricId
  keys : ∀ id ∈ MetricOp.keys u.op, f.HasId id

theorem UsedOf.foldl {metrics : List (String × ℕ)} {f : Fields} {u : UsedMetric}
    (h : UsedOf metrics f u) (keys : List String) :
    UsedOf metrics (keys.foldl Fields.require f) u :=
  ⟨h.metric, fun id hid => (h.keys id hid).foldl keys⟩

section Used

variable {o : HashOrder} {metrics : List (String × ℕ)} {tokens tokens' : Tokens}

/-- The keys an event has looked up, in their order. -/
def EventElem.keys (o : HashOrder) (table : List StateEntry) (ev : EventElem) : List String :=
  ev.primaryKey :: (table.flatMap ev.metricsOf).flatMap fun m => o.set m.userFk

end Used

section Registers

variable {o : HashOrder} {timeouts : List (String × ℕ)} {table : List StateEntry}

end Registers

/-- The states in whose order `use-metric` elements are read. -/
def Document.states (doc : Document) : List StateEntry := setNoState (addStates doc.statedefs [] 0)

/-- The flow keys a document names: those of its events, and those of the metrics its events use in
a state there is. -/
def Document.keys (doc : Document) : List String :=
  doc.events.flatMap fun ev =>
    ev.primaryKey :: (doc.states.flatMap ev.metricsOf).flatMap UseMetric.userFk

/-- The keys that are no field's name. -/
def Document.composites (doc : Document) : List String :=
  (doc.keys.filter fun key => ((Fields.new doc.fields).get key).isNone).dedup

/-- What is generated from an accepted document. -/
structure GeneratedOf (doc : Document) (g : Generated) : Prop where
  numbered : ∃ keys, (∀ key, key ∈ keys ↔ key ∈ doc.keys) ∧
    Numbering (.new doc.fields) keys g.tokens
  used : ∀ u ∈ g.ops, UsedOf g.metrics g.tokens.fields u
  regId : ∀ ge ∈ g.output.events, g.tokens.fields.HasId ge.regId
  metrics : g.metrics = doc.metrics.zipIdx
  features : g.features = doc.features.zipIdx

namespace GeneratedOf

variable {doc : Document} {g : Generated} {name : String} {id : ℤ}

theorem mem_additionals (h : GeneratedOf doc g) :
    name ∈ g.tokens.additionals ↔ name ∈ doc.composites := by
  obtain ⟨keys, hkeys, hn⟩ := h.numbered
  rw [hn.mem, hkeys, Document.composites, List.mem_dedup, List.mem_filter,
    Option.isNone_iff_eq_none]

theorem length_additionals (h : GeneratedOf doc g) :
    g.tokens.additionals.length = doc.composites.length := by
  obtain ⟨keys, hkeys, hn⟩ := h.numbered
  exact ((List.perm_ext_iff_of_nodup hn.nodup (List.nodup_dedup _)).2 fun _ =>
    h.mem_additionals).length_eq

/-- A number is a field's, or that of a composite key, or says that there is none. -/
theorem get_iff (h : GeneratedOf doc g) (hid : id ≠ -1) :
    g.tokens.fields.get name = some id ↔ doc.Declared name id ∨
      ∃ i : ℕ, g.tokens.additionals[i]? = some name ∧ id = (Fields.new doc.fields).max + i := by
  obtain ⟨keys, hkeys, hn⟩ := h.numbered
  rw [hn.get, get_new]
  refine or_congr_left ?_
  rw [Option.or_eq_some_iff, Document.Declared]
  constructor
  · rintro (hl | ⟨-, hl⟩)
    · exact hl
    · split_ifs at hl
      exact absurd (Option.some.inj hl).symm hid
  · exact .inl

end GeneratedOf

end DStreamon.Moin

/-! ## What is read back -/

namespace DStreamon.EventFactory

open Function (update update_self update_of_ne)
open Keys (pieces)

/-- The keys after the fields read so far. -/
structure Loaded (fields : List (String × ℤ)) (k : Keys) : Prop where
  token : ∀ {name id}, k.tokenMap name = some id ↔ (name, id) ∈ fields ∧ id ≠ -1
  nonneg : 0 ≤ k.lastTokenId
  le : ∀ f ∈ fields, f.2 ≤ k.lastTokenId
  last : k.lastTokenId = 0 ∨ ∃ f ∈ fields, f.2 = k.lastTokenId
  rules : ∀ r, k.flowkeyRules r = []

theorem asInt_eq {id : ℤ} (h : -1 ≤ id ∧ id < 16) : Keys.asInt id = id := by
  unfold Keys.asInt
  omega

theorem Loaded.addField {fields : List (String × ℤ)} {k : Keys} (h : Loaded fields k)
    {f : String × ℤ} (hf : -1 ≤ f.2 ∧ f.2 < 16) (huniq : ∀ id, (f.1, id) ∈ fields → id = f.2) :
    Loaded (fields ++ [f]) (k.addField f) := by
  have hmem : ∀ {name id}, (name, id) ∈ fields ++ [f] ↔
      (name, id) ∈ fields ∨ name = f.1 ∧ id = f.2 := by
    intro name id
    rw [List.mem_append, List.mem_singleton, Prod.ext_iff]
  have hnonneg := h.nonneg
  unfold Keys.addField
  rw [asInt_eq hf]
  split_ifs with hnull
  · refine ⟨fun {name id} => ?_, hnonneg, fun g hg => ?_, ?_, h.rules⟩
    · rw [h.token, hmem]
      constructor
      · exact fun ⟨hm, hid⟩ => ⟨.inl hm, hid⟩
      · rintro ⟨hm | ⟨-, rfl⟩, hid⟩
        · exact ⟨hm, hid⟩
        · exact absurd hnull hid
    · rcases List.mem_append.1 hg with hg | hg
      · exact h.le g hg
      · rw [List.mem_singleton.1 hg]
        omega
    · exact h.last.imp_right fun ⟨g, hg, hlast⟩ => ⟨g, List.mem_append_left _ hg, hlast⟩
  · refine ⟨fun {name id} => ?_, ?_, fun g hg => ?_, ?_, h.rules⟩
    · rw [hmem]
      dsimp only
      by_cases hname : name = f.1
      · subst hname
        rw [update_self]
        constructor
        · rintro ⟨⟩
          exact ⟨.inr ⟨rfl, rfl⟩, hnull⟩
        · rintro ⟨hm | ⟨-, rfl⟩, -⟩
          · rw [huniq id hm]
          · rfl
      · rw [update_of_ne hname, h.token]
        simp [hname]
    · exact hnonneg.trans (le_max_left _ _)
    · rcases List.mem_append.1 hg with hg | hg
      · exact (h.le g hg).trans (le_max_left _ _)
      · rw [List.mem_singleton.1 hg]
        exact le_max_right _ _
    · rcases max_cases k.lastTokenId f.2 with ⟨hmax, -⟩ | ⟨hmax, -⟩
      · dsimp only
        rw [hmax]
        exact h.last.imp_right fun ⟨g, hg, hlast⟩ => ⟨g, List.mem_append_left _ hg, hlast⟩
      · exact .inr ⟨f, by simp, hmax.symm⟩

theorem loaded_addFields {fields : List (String × ℤ)} (hf : ∀ f ∈ fields, -1 ≤ f.2 ∧ f.2 < 16)
    (huniq : ∀ name id id', (name, id) ∈ fields → (name, id') ∈ fields → id = id') :
    Loaded fields (addFields fields) := by
  induction fields using List.reverseRecOn with
  | nil => exact ⟨by simp [addFields, Keys.new], le_rfl, by simp, .inl rfl, fun _ => rfl⟩
  | append_singleton fields f ih =>
    have hleft : ∀ {g}, g ∈ fields → g ∈ fields ++ [f] := List.mem_append_left _
    rw [addFields, List.foldl_append]
    refine (ih (fun g hg => hf g (hleft hg)) fun name id id' hm hm' =>
      huniq name id id' (hleft hm) (hleft hm')).addField (hf f (by simp)) fun id hm => ?_
    exact huniq f.1 id f.2 (hleft hm) (by simp)

/-! ### Numbers that are there -/

/-- No key is read as none. -/
structure NoNull (k : Keys) : Prop where
  token : ∀ {name id}, k.tokenMap name = some id → id ≠ -1
  rule : ∀ {r id}, id ∈ k.flowkeyRules r → id ≠ -1

namespace NoNull

variable {k k' : Keys} {name : String} {names : List String}

theorem insert (h : NoNull k) {id : ℤ} (hid : id ≠ -1) (builtin last : ℤ) :
    NoNull ⟨update k.tokenMap name (some id), builtin, last, k.flowkeyRules⟩ := by
  refine ⟨fun {name' id'} hid' => ?_, h.rule⟩
  dsimp only at hid'
  by_cases hname : name' = name
  · subst hname
    rw [update_self] at hid'
    cases hid'
    exact hid
  · rw [update_of_ne hname] at hid'
    exact h.token hid'

theorem addField (h : NoNull k) (f : String × ℤ) : NoNull (k.addField f) := by
  unfold Keys.addField
  split_ifs with hnull
  · exact h
  · exact h.insert hnull _ _

theorem addFields (fields : List (String × ℤ)) : NoNull (addFields fields) := by
  induction fields using List.reverseRecOn with
  | nil => exact ⟨by simp [EventFactory.addFields, Keys.new],
      by simp [EventFactory.addFields, Keys.new]⟩
  | append_singleton fields f ih =>
    rw [EventFactory.addFields, List.foldl_append]
    exact ih.addField f

theorem tokenOf (h : NoNull k) (name : String) :
    NoNull (k.token name).1 ∧ (k.token name).2 ≠ -1 := by
  unfold Keys.token
  split
  · next id hid => exact ⟨h, h.token hid⟩
  · exact ⟨h.insert (by decide) _ _, show (0 : ℤ) ≠ -1 by decide⟩

theorem tokenize (h : NoNull k) : ∀ names : List String,
    NoNull (k.tokenize names).1 ∧ ∀ id ∈ (k.tokenize names).2, id ≠ -1 := by
  intro names
  induction names generalizing k with
  | nil => exact ⟨h, by simp [Keys.tokenize]⟩
  | cons name names ih =>
    obtain ⟨htoken, hid⟩ := h.tokenOf name
    obtain ⟨hrest, hids⟩ := ih htoken
    exact ⟨hrest, by simpa [Keys.tokenize] using ⟨hid, hids⟩⟩

theorem addKey (h : NoNull k) (hk : k.addKey name = some k') : NoNull k' := by
  unfold Keys.addKey at hk
  split_ifs at hk
  · cases hk
    exact h
  · dsimp only at hk
    split_ifs at hk
    cases hk
    obtain ⟨hpieces, hids⟩ := (h.tokenOf name).1.tokenize (pieces [] name.toList)
    refine ⟨hpieces.token, fun {r id} hid => ?_⟩
    dsimp only at hid
    rw [Function.update_apply] at hid
    split_ifs at hid
    · rcases List.mem_append.1 hid with hid | hid
      · exact hpieces.rule hid
      · exact hids id hid
    · exact hpieces.rule hid

theorem foldlM : ∀ {names : List String} {k : Keys}, NoNull k →
    names.foldlM Keys.addKey k = some k' → NoNull k'
  | [], k, h, hk => by
    cases hk
    exact h
  | name :: names, k, h, hk => by
    rw [List.foldlM_cons] at hk
    obtain ⟨k₁, hk₁, hk⟩ := Option.bind_eq_some_iff.1 hk
    exact foldlM (h.addKey hk₁) hk

theorem configureKeys {fields : List (String × ℤ)}
    (hk : configureKeys fields names = some k') : NoNull k' := by
  unfold EventFactory.configureKeys at hk
  dsimp only at hk
  split_ifs at hk
  have h := addFields fields
  refine foldlM ?_ hk
  exact ⟨h.token, h.rule⟩

end NoNull

/-! ### Rules -/

theorem tokenize_known {k : Keys} : ∀ {names : List String},
    (∀ name ∈ names, (k.tokenMap name).isSome) →
      k.tokenize names = (k, names.map fun name => (k.tokenMap name).getD 0)
  | [], _ => rfl
  | name :: names, h => by
    obtain ⟨id, hid⟩ := Option.isSome_iff_exists.1 (h name List.mem_cons_self)
    have htoken : k.token name = (k, id) := by
      rw [Keys.token, hid]
    have ih := tokenize_known fun n hn => h n (List.mem_cons_of_mem _ hn)
    simp only [Keys.tokenize, htoken, ih, List.map_cons, hid, Option.getD_some]

/-- The keys after `done` of `n` composite keys, each ruled by what its components were read as. -/
structure Ruled (k₀ : Keys) (n : ℕ) (done : List String) (k : Keys) : Prop where
  tokenMap : k.tokenMap = k₀.tokenMap
  lastTokenId : k.lastTokenId = k₀.lastTokenId
  builtinTokens : k.builtinTokens = k₀.lastTokenId + 1 - done.length
  rule : ∀ {i : ℕ} {name}, done[i]? = some name →
    k.flowkeyRules (n - 1 - i) = (pieces [] name.toList).map fun c => (k₀.tokenMap c).getD 0
  empty : ∀ {r}, r < n - done.length → k.flowkeyRules r = []

theorem Ruled.addKey {k₀ k : Keys} {n : ℕ} {done : List String} (h : Ruled k₀ n done k)
    (hn : n ≤ 8) (hdone : done.length < n) {name : String} (hname : name ≠ "")
    (hid : k₀.tokenMap name = some (k₀.lastTokenId - ((n - 1 - done.length : ℕ) : ℤ)))
    (hknown : ∀ c ∈ pieces [] name.toList, (k₀.tokenMap c).isSome) :
    ∃ k', k.addKey name = some k' ∧ Ruled k₀ n (done ++ [name]) k' := by
  have htoken : k.token name = (k, k₀.lastTokenId - ((n - 1 - done.length : ℕ) : ℤ)) := by
    rw [Keys.token, h.tokenMap, hid]
  have hknown' : ∀ c ∈ pieces [] name.toList, (k.tokenMap c).isSome := by
    rwa [h.tokenMap]
  have hrule : k.lastTokenId - (k₀.lastTokenId - ((n - 1 - done.length : ℕ) : ℤ)) =
      ((n - 1 - done.length : ℕ) : ℤ) := by
    rw [h.lastTokenId]
    omega
  have hlt : (0 : ℤ) ≤ ((n - 1 - done.length : ℕ) : ℤ) ∧ ((n - 1 - done.length : ℕ) : ℤ) < 8 := by
    omega
  have hadd : k.addKey name = some
      { k with flowkeyRules := update k.flowkeyRules (n - 1 - done.length)
                 (k.flowkeyRules (n - 1 - done.length) ++
                   (pieces [] name.toList).map fun c => (k.tokenMap c).getD 0)
               builtinTokens := k.builtinTokens - 1 } := by
    simp only [Keys.addKey, if_neg hname, htoken, hrule, if_pos hlt, tokenize_known hknown',
      Int.toNat_natCast]
  refine ⟨_, hadd, h.tokenMap, h.lastTokenId, ?_, fun {i name'} hi => ?_, fun {r} hr => ?_⟩
  · dsimp only
    rw [h.builtinTokens, List.length_append, List.length_singleton]
    omega
  · dsimp only
    rw [List.getElem?_append] at hi
    split_ifs at hi with hlt'
    · rw [update_of_ne (by omega), h.rule hi]
    · have hi0 : i - done.length = 0 := by
        by_contra hne
        rw [List.getElem?_eq_none (by simp; omega)] at hi
        cases hi
      obtain rfl : i = done.length := by omega
      obtain rfl : name = name' := by simpa using hi
      rw [update_self, h.empty (by omega), h.tokenMap]
      rfl
  · dsimp only
    rw [List.length_append, List.length_singleton] at hr
    rw [update_of_ne (by omega), h.empty (by omega)]

theorem Ruled.foldlM {k₀ : Keys} {n : ℕ} (hn : n ≤ 8) : ∀ {rest done : List String} {k : Keys},
    Ruled k₀ n done k → done.length + rest.length = n → (∀ name ∈ rest, name ≠ "") →
    (∀ (i : ℕ) name, rest[i]? = some name → k₀.tokenMap name =
      some (k₀.lastTokenId - ((n - 1 - (done.length + i) : ℕ) : ℤ))) →
    (∀ name ∈ rest, ∀ c ∈ pieces [] name.toList, (k₀.tokenMap c).isSome) →
    ∃ k', rest.foldlM Keys.addKey k = some k' ∧ Ruled k₀ n (done ++ rest) k'
  | [], done, k, h, _, _, _, _ => ⟨k, rfl, by simpa using h⟩
  | name :: rest, done, k, h, hlen, hname, hid, hknown => by
    simp only [List.forall_mem_cons] at hname hknown
    rw [List.length_cons] at hlen
    obtain ⟨k₁, hk₁, h₁⟩ := h.addKey hn (by omega) hname.1 (by simpa using hid 0 name) hknown.1
    obtain ⟨k', hk', h'⟩ := h₁.foldlM hn (by simp; omega) hname.2
      (fun i name' hi => by
        rw [List.length_append, List.length_singleton, Nat.add_assoc, Nat.add_comm 1]
        exact hid (i + 1) name' hi) hknown.2
    refine ⟨k', ?_, by simpa using h'⟩
    rw [List.foldlM_cons, hk₁]
    exact hk'

end DStreamon.EventFactory

/-! ## Numbers that fit -/

namespace DStreamon.Moin

open EventFactory (Keys addFields configureKeys Loaded NoNull Ruled loaded_addFields)
open EventFactory.Keys (pieces)

/-- The numbers of fields and keys that are written; every other place that names one writes a
number of the tokens too. -/
def Generated.flowkeyIds (o : HashOrder) (g : Generated) : List ℤ :=
  (g.toxml o).map Prod.snd ++ g.ops.flatMap (fun u => MetricOp.keys u.op) ++
    g.output.events.map GenEvent.regId

def Generated.metricIds (g : Generated) : List ℕ :=
  g.metrics.map Prod.snd ++ g.ops.map UsedMetric.metricId

/-- `LastTokenId - id` for the number of the key. -/
def Generated.ruleIndex (o : HashOrder) (g : Generated) (name : String) : ℤ :=
  (addFields (g.toxml o)).lastTokenId - (g.tokens.fields.get name).getD (-1)

def Generated.configure (o : HashOrder) (g : Generated) : Option Keys :=
  configureKeys (g.toxml o) g.tokens.additionals

/-- The numbers index what the block has, where `-1` stands for no key; each composite key is ruled
by the numbers of its components, each a field's; and no field is taken for a composite key. -/
structure Fits (o : HashOrder) (doc : Document) (g : Generated) : Prop where
  map : ∀ id ∈ g.flowkeyIds o, id ≠ -1 → 0 ≤ id ∧ id < 16
  flowkeyRules : ∀ name ∈ g.tokens.additionals, 0 ≤ g.ruleIndex o name ∧ g.ruleIndex o name < 8
  metrics : ∀ id ∈ g.metricIds, id < 16
  features : ∀ f ∈ g.features, f.2 < 16
  rule : ∀ name ∈ g.tokens.additionals, ∀ components, Composed name components →
    ∃ k, g.configure o = some k ∧
      List.Forall₂ doc.Declared components (k.flowkeyRules (g.ruleIndex o name).toNat)
  plain : ∀ k, g.configure o = some k → ∀ name id, doc.Declared name id → id < k.builtinTokens

/-- There is room for what the document names, and the components of its composite keys are fields
with a register. -/
structure Document.Sound (doc : Document) : Prop where
  fields : ∀ name id, doc.Declared name id → id ≠ -1 → 0 ≤ id ∧ id < 16
  keys : doc.composites ≠ [] → (Fields.new doc.fields).max + doc.composites.length ≤ 16 ∧
    doc.composites.length ≤ 8
  metrics : doc.metrics.length ≤ 16
  features : doc.features.length ≤ 16
  components : ∀ name ∈ doc.composites, ∀ components, Composed name components →
    ∀ c ∈ components, ∃ id, doc.Declared c id ∧ id ≠ -1

theorem Document.Declared.lt {doc : Document} {name : String} {id : ℤ}
    (h : doc.Declared name id) : id < (Fields.new doc.fields).max := by
  obtain ⟨l, r, hl, -⟩ := List.lookup_eq_some_iff.1 h
  refine le_max_new.2 (name, id) (List.mem_reverse.1 ?_)
  simp [hl]

namespace GeneratedOf

variable {o : HashOrder} {doc : Document} {g : Generated} {name : String} {id : ℤ}

theorem hasId_flowkeyIds (h : GeneratedOf doc g) (hid : id ∈ g.flowkeyIds o) :
    g.tokens.fields.HasId id := by
  rw [Generated.flowkeyIds, List.mem_append, List.mem_append, or_assoc] at hid
  rcases hid with hid | hid | hid
  · obtain ⟨⟨name, id⟩, hmem, rfl⟩ := List.mem_map.1 hid
    exact ⟨name, o.mem_items.1 hmem⟩
  · obtain ⟨u, hu, hid⟩ := List.mem_flatMap.1 hid
    exact (h.used u hu).keys id hid
  · obtain ⟨ge, hge, rfl⟩ := List.mem_map.1 hid
    exact h.regId ge hge

theorem mem_flowkeyIds (hid : g.tokens.fields.get name = some id) : id ∈ g.flowkeyIds o := by
  refine List.mem_append_left _ (List.mem_append_left _ (List.mem_map.2 ⟨(name, id), ?_, rfl⟩))
  exact o.mem_items.2 hid

theorem loaded (hmap : ∀ id ∈ g.flowkeyIds o, id ≠ -1 → 0 ≤ id ∧ id < 16) :
    Loaded (g.toxml o) (addFields (g.toxml o)) := by
  refine loaded_addFields (fun f hf => ?_) fun name id id' hm hm' => ?_
  · have := hmap f.2 (mem_flowkeyIds (o.mem_items.1 hf))
    omega
  · exact Option.some.inj ((o.mem_items.1 hm).symm.trans (o.mem_items.1 hm'))

theorem tokenMap_iff (hload : Loaded (g.toxml o) (addFields (g.toxml o))) :
    (addFields (g.toxml o)).tokenMap name = some id ↔
      g.tokens.fields.get name = some id ∧ id ≠ -1 := by
  rw [hload.token, Generated.toxml, o.mem_items]
  rfl

/-- The last number is that of the composite key that comes last. -/
theorem lastTokenId (h : GeneratedOf doc g) (hload : Loaded (g.toxml o) (addFields (g.toxml o)))
    (hne : g.tokens.additionals ≠ []) :
    (addFields (g.toxml o)).lastTokenId =
      (Fields.new doc.fields).max + g.tokens.additionals.length - 1 := by
  have hpos : 0 < (Fields.new doc.fields).max := le_max_new.1
  have hlen : 0 < g.tokens.additionals.length := List.length_pos_iff.2 hne
  have hlast : g.tokens.additionals[g.tokens.additionals.length - 1]? =
      some (g.tokens.additionals[g.tokens.additionals.length - 1]) :=
    List.getElem?_eq_getElem (by omega)
  have hget : g.tokens.fields.get (g.tokens.additionals[g.tokens.additionals.length - 1]) =
      some ((Fields.new doc.fields).max + ((g.tokens.additionals.length - 1 : ℕ) : ℤ)) :=
    (h.get_iff (by omega)).2 (.inr ⟨_, hlast, rfl⟩)
  have hle := hload.le _ (o.mem_items.2 hget)
  rcases hload.last with hzero | ⟨f, hf, hlast'⟩
  · omega
  · rcases eq_or_ne f.2 (-1) with hnull | hnull
    · omega
    · rcases (h.get_iff hnull).1 (o.mem_items.1 hf) with hdecl | ⟨i, hi, hid⟩
      · have := hdecl.lt
        omega
      · have := (List.getElem?_eq_some_iff.1 hi).1
        omega

theorem ruleIndex (h : GeneratedOf doc g) (hload : Loaded (g.toxml o) (addFields (g.toxml o)))
    {i : ℕ} (hi : g.tokens.additionals[i]? = some name) :
    g.tokens.fields.get name = some ((Fields.new doc.fields).max + i) ∧
      g.ruleIndex o name = ((g.tokens.additionals.length - 1 - i : ℕ) : ℤ) := by
  have hpos : 0 < (Fields.new doc.fields).max := le_max_new.1
  have hlt := (List.getElem?_eq_some_iff.1 hi).1
  have hget := (h.get_iff (by omega)).2 (.inr ⟨i, hi, rfl⟩)
  refine ⟨hget, ?_⟩
  rw [Generated.ruleIndex, hget, h.lastTokenId hload (by rintro h; simp [h] at hlt),
    Option.getD_some]
  omega

theorem ne_empty (h : GeneratedOf doc g) (hname : name ∈ g.tokens.additionals) : name ≠ "" := by
  rintro rfl
  rw [h.mem_additionals, Document.composites, List.mem_dedup, List.mem_filter, get_new] at hname
  simp at hname

end GeneratedOf

theorem Document.Sound.configure {o : HashOrder} {doc : Document} {g : Generated}
    (hs : doc.Sound) (h : GeneratedOf doc g) (hload : Loaded (g.toxml o) (addFields (g.toxml o)))
    (hpos : 0 < (addFields (g.toxml o)).lastTokenId) :
    ∃ k, g.configure o = some k ∧
      Ruled (addFields (g.toxml o)) g.tokens.additionals.length g.tokens.additionals k := by
  rw [Generated.configure, configureKeys, if_pos hpos]
  by_cases hne : g.tokens.additionals = []
  · rw [hne]
    exact ⟨_, rfl, ⟨rfl, rfl, by simp, by simp, fun {r} _ => hload.rules r⟩⟩
  · have hne' : doc.composites ≠ [] := by
      rw [← List.length_pos_iff, ← h.length_additionals]
      exact List.length_pos_iff.2 hne
    have hlen := (hs.keys hne').2
    rw [← h.length_additionals] at hlen
    have hlast := h.lastTokenId hload hne
    have hstart : Ruled (addFields (g.toxml o)) g.tokens.additionals.length []
        { addFields (g.toxml o) with
          builtinTokens := (addFields (g.toxml o)).lastTokenId + 1 } :=
      ⟨rfl, rfl, by simp, by simp, fun {r} _ => hload.rules r⟩
    refine hstart.foldlM hlen (by simp) (fun name => h.ne_empty) (fun i name hi => ?_)
      fun name hname c hc => ?_
    · have hlt := (List.getElem?_eq_some_iff.1 hi).1
      have hmax : 0 < (Fields.new doc.fields).max := le_max_new.1
      have hid : (addFields (g.toxml o)).lastTokenId -
          ((g.tokens.additionals.length - 1 - (([] : List String).length + i) : ℕ) : ℤ) =
          (Fields.new doc.fields).max + i := by
        rw [List.length_nil, hlast]
        omega
      rw [hid, GeneratedOf.tokenMap_iff hload]
      exact ⟨(h.ruleIndex hload hi).1, by omega⟩
    · obtain ⟨id, hid, hnull⟩ := hs.components name (h.mem_additionals.1 hname) _
        (composed_iff.2 rfl) c hc
      rw [(GeneratedOf.tokenMap_iff hload).2 ⟨(h.get_iff hnull).2 (.inl hid), hnull⟩]
      rfl

theorem Document.Sound.fits {o : HashOrder} {doc : Document} {g : Generated} (hs : doc.Sound)
    (h : GeneratedOf doc g) : Fits o doc g := by
  have hmax : 0 < (Fields.new doc.fields).max := le_max_new.1
  have hkeys : g.tokens.additionals ≠ [] →
      (Fields.new doc.fields).max + g.tokens.additionals.length ≤ 16 ∧
        g.tokens.additionals.length ≤ 8 := by
    intro hne
    rw [h.length_additionals]
    refine hs.keys ?_
    rw [← List.length_pos_iff, ← h.length_additionals]
    exact List.length_pos_iff.2 hne
  have hmap : ∀ id ∈ g.flowkeyIds o, id ≠ -1 → 0 ≤ id ∧ id < 16 := by
    intro id hid hnull
    obtain ⟨name, hname⟩ := h.hasId_flowkeyIds hid
    rcases (h.get_iff hnull).1 hname with hdecl | ⟨i, hi, rfl⟩
    · exact hs.fields name id hdecl hnull
    · have hlt := (List.getElem?_eq_some_iff.1 hi).1
      have := (hkeys (by rintro h; simp [h] at hlt)).1
      omega
  have hload := GeneratedOf.loaded hmap
  have hpos : g.tokens.additionals ≠ [] → 0 < (addFields (g.toxml o)).lastTokenId := by
    intro hne
    have hlen : 0 < g.tokens.additionals.length := List.length_pos_iff.2 hne
    have := h.lastTokenId hload hne
    rcases hload.nonneg.eq_or_lt with hzero | hpos
    · have hlast := List.getElem?_eq_getElem (l := g.tokens.additionals) (i := 0) hlen
      have := hload.le _ (o.mem_items.2 (h.ruleIndex hload hlast).1)
      dsimp only at this
      omega
    · exact hpos
  refine ⟨hmap, fun name hname => ?_, fun id hid => ?_, fun f hf => ?_,
    fun name hname components hcomp => ?_, fun k hk name id hdecl => ?_⟩
  · obtain ⟨i, hi⟩ := List.getElem?_of_mem hname
    have hlt := (List.getElem?_eq_some_iff.1 hi).1
    have := (hkeys (List.ne_nil_of_mem hname)).2
    rw [(h.ruleIndex hload hi).2]
    omega
  · have hmem : ∃ name, (name, id) ∈ g.metrics := by
      rcases List.mem_append.1 hid with hid | hid
      · obtain ⟨⟨name, n⟩, hmem, rfl⟩ := List.mem_map.1 hid
        exact ⟨name, hmem⟩
      · obtain ⟨u, hu, rfl⟩ := List.mem_map.1 hid
        obtain ⟨name, hname⟩ := (h.used u hu).metric
        obtain ⟨l, r, hl, -⟩ := List.lookup_eq_some_iff.1 hname
        exact ⟨name, by simp [hl]⟩
    obtain ⟨name, hmem⟩ := hmem
    rw [h.metrics, List.mk_mem_zipIdx_iff_getElem?] at hmem
    exact (List.getElem?_eq_some_iff.1 hmem).1.trans_le hs.metrics
  · rw [h.features, List.mem_zipIdx_iff_getElem?] at hf
    exact (List.getElem?_eq_some_iff.1 hf).1.trans_le hs.features
  · obtain ⟨k, hk, hruled⟩ := hs.configure h hload (hpos (List.ne_nil_of_mem hname))
    obtain ⟨i, hi⟩ := List.getElem?_of_mem hname
    have hidx : (g.ruleIndex o name).toNat = g.tokens.additionals.length - 1 - i := by
      rw [(h.ruleIndex hload hi).2, Int.toNat_natCast]
    refine ⟨k, hk, ?_⟩
    rw [hidx, hruled.rule hi, ← composed_iff.1 hcomp, List.forall₂_map_right_iff]
    refine List.forall₂_same.2 fun c hc => ?_
    obtain ⟨id, hid, hnull⟩ := hs.components name (h.mem_additionals.1 hname) components hcomp c hc
    rw [(GeneratedOf.tokenMap_iff hload).2 ⟨(h.get_iff hnull).2 (.inl hid), hnull⟩]
    exact hid
  · have hlast : 0 < (addFields (g.toxml o)).lastTokenId := by
      by_contra hnot
      rw [Generated.configure, configureKeys, if_neg hnot] at hk
      cases hk
    obtain ⟨k', hk', hruled⟩ := hs.configure h hload hlast
    obtain rfl := Option.some.inj (hk.symm.trans hk')
    rw [hruled.builtinTokens]
    by_cases hne : g.tokens.additionals = []
    · rw [hne, List.length_nil]
      rcases eq_or_ne id (-1) with rfl | hnull
      · omega
      · have := hload.le _ (o.mem_items.2 ((h.get_iff hnull).2 (.inl hdecl)))
        dsimp only at this
        omega
    · have := h.lastTokenId hload hne
      have := hdecl.lt
      omega

theorem Fits.sound {o : HashOrder} {doc : Document} {g : Generated} (hf : Fits o doc g)
    (h : GeneratedOf doc g) : doc.Sound := by
  have hload := GeneratedOf.loaded hf.map
  refine ⟨fun name id hdecl hnull => ?_, fun hne => ?_, ?_, ?_,
    fun name hname components hcomp c hc => ?_⟩
  · exact hf.map id (GeneratedOf.mem_flowkeyIds ((h.get_iff hnull).2 (.inl hdecl))) hnull
  · have hlen : 0 < g.tokens.additionals.length := by
      rw [h.length_additionals]
      exact List.length_pos_iff.2 hne
    have hmax : 0 < (Fields.new doc.fields).max := le_max_new.1
    have hfirst := List.getElem?_eq_getElem (l := g.tokens.additionals) (i := 0) hlen
    have hlast := List.getElem?_eq_getElem (l := g.tokens.additionals)
      (i := g.tokens.additionals.length - 1) (by omega)
    have hroom := hf.map _ (GeneratedOf.mem_flowkeyIds (h.ruleIndex hload hlast).1) (by omega)
    have hrules := (hf.flowkeyRules _ (List.mem_of_getElem? hfirst)).2
    rw [(h.ruleIndex hload hfirst).2] at hrules
    rw [← h.length_additionals]
    omega
  · by_contra hlt
    have hlast := List.getElem?_eq_getElem (l := doc.metrics) (i := 16) (by omega)
    have hmem : (doc.metrics[16], 16) ∈ g.metrics := by
      rw [h.metrics]
      exact List.mk_mem_zipIdx_iff_getElem?.2 hlast
    exact absurd (hf.metrics 16 (List.mem_append_left _ (List.mem_map.2 ⟨_, hmem, rfl⟩)))
      (by decide)
  · by_contra hlt
    have hlast := List.getElem?_eq_getElem (l := doc.features) (i := 16) (by omega)
    have hmem : (doc.features[16], 16) ∈ g.features := by
      rw [h.features]
      exact List.mk_mem_zipIdx_iff_getElem?.2 hlast
    exact absurd (hf.features _ hmem) (Nat.lt_irrefl 16)
  · obtain ⟨k, hk, hrule⟩ := hf.rule name (h.mem_additionals.2 hname) components hcomp
    obtain ⟨id, hid, hdecl⟩ := Forall2.exists_right hrule hc
    exact ⟨id, hdecl, (NoNull.configureKeys hk).rule hid⟩

end DStreamon.Moin
