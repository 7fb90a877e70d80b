import CoreC.Json.Record
import Mathlib.Data.List.Nodup
import Mathlib.Data.Option.Basic

/-! # Ways to give the same data

A schema says where a format has records, variants and lists. Along it, a value may be given in
different ways: members of a record in another order, members that no field has a name for, and
fields left out whose value is the default. A decoder respects a schema when it cannot tell such
values apart. Decoders that are put together from parts that respect their schemas do so too.
-/

namespace CoreC.Json

open List Fields

/-- A format: records with their fields, each with the default that stands for it when it is
missing, variants with what they carry, and lists. -/
inductive Schema where
  /-- A value that is taken as it is. -/
  | leaf
  | list (item : Schema)
  | record (fields : List (String × Schema × Option Json))
  | variant (cases : List (String × Schema))

namespace Schema

/-- Two values give the same data. -/
inductive Alike : Schema → Json → Json → Prop where
  | refl (schema : Schema) (j : Json) : Alike schema j j
  | symm {schema : Schema} {j j' : Json} : Alike schema j j' → Alike schema j' j
  | trans {schema : Schema} {j k l : Json} : Alike schema j k → Alike schema k l → Alike schema j l
  | item {schema : Schema} {j j' : Json} (before after : List Json) :
      Alike schema j j' → Alike (.list schema) (.arr (before ++ j :: after)) (.arr (before ++ j' :: after))
  | content {cases : List (String × Schema)} {name : String} {schema : Schema} {j j' : Json} :
      cases.lookup name = some schema → Alike schema j j' →
      Alike (.variant cases) (.obj [(name, j)]) (.obj [(name, j')])
  | field {fields : List (String × Schema × Option Json)} {name : String} {schema : Schema} {default : Option Json}
      {j j' : Json} (before after : List (String × Json)) :
      (name, schema, default) ∈ fields → Alike schema j j' →
      Alike (.record fields) (.obj (before ++ (name, j) :: after)) (.obj (before ++ (name, j') :: after))
  /-- The order of members does not matter. -/
  | permute {fields : List (String × Schema × Option Json)} {members members' : List (String × Json)} :
      members.Perm members' → Alike (.record fields) (.obj members) (.obj members')
  /-- Members that are not fields do not matter. -/
  | extra {fields : List (String × Schema × Option Json)} {members : List (String × Json)}
    {name : String} (j : Json) :
      name ∉ fields.map (·.1) → Alike (.record fields) (.obj members) (.obj ((name, j) :: members))
  /-- A field whose value is the default may be left out. -/
  | omitted {fields : List (String × Schema × Option Json)} {members : List (String × Json)} {name : String}
      {schema : Schema} {default : Json} :
      (name, schema, some default) ∈ fields → name ∉ members.map (·.1) →
      Alike (.record fields) (.obj ((name, default) :: members)) (.obj members)

/-- A decoder gives the same result for values that give the same data. -/
def Respects {α : Type} (schema : Schema) (decode : Json → Option α) : Prop :=
  ∀ ⦃j j' : Json⦄, schema.Alike j j' → decode j = decode j'

variable {j j' : Json}

theorem Alike.eq_of_leaf (h : Alike .leaf j j') : j = j' := by
  generalize hschema : leaf = schema at h
  induction h with
  | refl => rfl
  | symm _ ih => exact (ih hschema).symm
  | trans _ _ ih ih' => exact (ih hschema).trans (ih' hschema)
  | item | content | field | permute | extra | omitted => cases hschema

variable {α : Type}

theorem respects_leaf (decode : Json → Option α) : Respects .leaf decode :=
  fun _ _ h => by rw [h.eq_of_leaf]

variable {decode : Json → Option α}

theorem Respects.list {schema : Schema} (hdecode : schema.Respects decode) :
    (Schema.list schema).Respects (Json.toList? decode) := by
  intro j j' h
  generalize hschema : Schema.list schema = whole at h
  induction h with
  | refl => rfl
  | symm _ ih => exact (ih hschema).symm
  | trans _ _ ih ih' => exact (ih hschema).trans (ih' hschema)
  | item before after hitem =>
    cases hschema
    simp only [Json.toList?, mapM_append, mapM_cons, hdecode hitem]
  | content | field | permute | extra | omitted => cases hschema

/-- A decoder of a variant respects its schema if it does so case by case. -/
theorem respects_variant {cases : List (String × Schema)}
    (hcases : ∀ entry ∈ cases, entry.2.Respects fun content => decode (tagged entry.1 content)) :
    (Schema.variant cases).Respects decode := by
  intro j j' h
  generalize hschema : Schema.variant cases = whole at h
  induction h with
  | refl => rfl
  | symm _ ih => exact (ih hschema).symm
  | trans _ _ ih ih' => exact (ih hschema).trans (ih' hschema)
  | @content _ name schema _ _ hcase halike =>
    cases hschema
    obtain ⟨before, after, rfl, -⟩ := lookup_eq_some_iff.mp hcase
    exact hcases (name, schema) (by simp) halike
  | item | field | permute | extra | omitted => cases hschema

/-! ## Records -/

variable {name : String}

theorem lookup_eq_some_iff {members : List (String × Json)} (hnodup : (members.map (·.1)).Nodup)
    {j : Json} : members.lookup name = some j ↔ (name, j) ∈ members := by
  induction members with
  | nil => simp
  | cons member members ih =>
    obtain ⟨name', j'⟩ := member
    rw [map_cons, nodup_cons] at hnodup
    rw [lookup_cons]
    by_cases hname : name = name'
    · subst hname
      have hnot : (name, j) ∉ members := fun hmem => hnodup.1 (mem_map_of_mem (f := (·.1)) hmem)
      simp [hnot, eq_comm]
    · rw [beq_false_of_ne hname, ih hnodup.2]
      simp [hname]

/-- A field that is given in two ways, the default standing for it where it is missing: it is
missing in both, or both give the same data. -/
def Given (schema : Schema) (default given given' : Option Json) : Prop :=
  given.or default = given'.or default ∨
    ∃ j j', given.or default = some j ∧ given'.or default = some j' ∧ schema.Alike j j'

section Given

variable {schema : Schema} {default given given' : Option Json}

theorem Given.of_eq (h : given = given') : Given schema default given given' := .inl (by rw [h])

/-- A decoder that respects the schema finds the same in both. -/
theorem Given.bind_eq (h : Given schema default given given')
    (hdecode : schema.Respects decode) : (given.or default).bind decode = (given'.or default).bind decode := by
  rcases h with heq | ⟨j, j', hj, hj', halike⟩
  · rw [heq]
  · rw [hj, hj']
    exact hdecode halike

end Given

/-- Two records that are given by names have fields that give the same data. -/
structure Matches (fields : List (String × Schema × Option Json)) (f f' : Fields) : Prop where
  named : f.named = true
  named' : f'.named = true
  given : ∀ {name schema default}, (name, schema, default) ∈ fields →
    Given schema default (f.given.lookup name) (f'.given.lookup name)

variable {fields : List (String × Schema × Option Json)}

/-- What is read from the fields of a record is the same for records that give the same data. -/
def Reads {α : Type} (fields : List (String × Schema × Option Json)) (read : Fields → Option α) : Prop :=
  ∀ ⦃f f' : Fields⦄, Matches fields f f' → read f = read f'

/-- The members that are fields. -/
def known (fields : List (String × Schema × Option Json)) (members : List (String × Json)) :
    List (String × Json) :=
  members.filter fun member => (fields.map (·.1)).contains member.1

theorem ofJson?_obj (fields : List (String × Schema × Option Json)) (members : List (String × Json)) :
    ofJson? (fields.map (·.1)) (.obj members) =
      if ((known fields members).map (·.1)).Nodup then some ⟨true, known fields members⟩ else none := rfl

theorem known_cons_field (hname : name ∈ fields.map (·.1)) (j : Json) (members : List (String × Json)) :
    known fields ((name, j) :: members) = (name, j) :: known fields members :=
  filter_cons_of_pos (contains_iff_mem.mpr hname)

theorem mem_names {schema : Schema} {default : Option Json} (hfield : (name, schema, default) ∈ fields) :
    name ∈ fields.map (·.1) := mem_map_of_mem (f := (·.1)) hfield

/-- A name stands for one field. -/
theorem field_unique (hunique : (fields.map (·.1)).Nodup) {schema schema' : Schema}
    {default default' : Option Json} (hfield : (name, schema, default) ∈ fields)
    (hfield' : (name, schema', default') ∈ fields) : schema' = schema ∧ default' = default := by
  have heq := inj_on_of_nodup_map hunique hfield hfield' rfl
  cases heq
  exact ⟨rfl, rfl⟩

section Generators

variable {read : Fields → Option α} {schema : Schema} {members members' : List (String × Json)}
  (hdecode : ∀ members, decode (.obj members) = ofJson? (fields.map (·.1)) (.obj members) >>= read)
  (hread : Reads fields read)

include hdecode hread

/-- From two objects the same is read if the names of their known members repeat alike, and where
they do not repeat the fields give the same data. -/
theorem decode_eq_of_known
    (hnodup : ((known fields members).map (·.1)).Nodup ↔ ((known fields members').map (·.1)).Nodup)
    (hgiven : ((known fields members).map (·.1)).Nodup → ((known fields members').map (·.1)).Nodup →
      ∀ {name schema default}, (name, schema, default) ∈ fields →
      Given schema default ((known fields members).lookup name) ((known fields members').lookup name)) :
    decode (.obj members) = decode (.obj members') := by
  rw [hdecode, hdecode, ofJson?_obj, ofJson?_obj]
  by_cases h : ((known fields members).map (·.1)).Nodup
  · have h' := hnodup.mp h
    rw [if_pos h, if_pos h']
    exact hread ⟨rfl, rfl, hgiven h h'⟩
  · rw [if_neg h, if_neg (mt hnodup.mpr h)]

theorem decode_permute (hperm : members.Perm members') :
    decode (.obj members) = decode (.obj members') := by
  have hknown : (known fields members).Perm (known fields members') := hperm.filter _
  refine decode_eq_of_known hdecode hread (hknown.map (·.1)).nodup_iff fun hnodup hnodup' => ?_
  intro name schema default hfield
  refine .of_eq (Option.ext fun j => ?_)
  rw [lookup_eq_some_iff hnodup, lookup_eq_some_iff hnodup', hknown.mem_iff]

variable (hunique : (fields.map (·.1)).Nodup)

include hunique

theorem decode_field {default : Option Json}
    (before after : List (String × Json)) (hfield : (name, schema, default) ∈ fields)
    (halike : schema.Alike j j') :
    decode (.obj (before ++ (name, j) :: after)) = decode (.obj (before ++ (name, j') :: after)) := by
  have hknown j : known fields (before ++ (name, j) :: after) =
      known fields before ++ (name, j) :: known fields after := by
    rw [known, filter_append]
    exact congrArg _ (known_cons_field (mem_names hfield) j after)
  refine decode_eq_of_known hdecode hread (by simp only [hknown, map_append, map_cons]) ?_
  intro _ _ name' schema' default' hfield'
  rw [hknown, hknown, lookup_append, lookup_append, lookup_cons, lookup_cons]
  by_cases hname : name' = name
  · subst hname
    obtain ⟨rfl, rfl⟩ := field_unique hunique hfield hfield'
    rw [beq_self_eq_true]
    cases (known fields before).lookup name' with
    | none => exact .inr ⟨j, j', rfl, rfl, halike⟩
    | some found => exact .of_eq rfl
  · rw [beq_false_of_ne hname]
    exact .of_eq rfl

theorem decode_omitted {default : Json}
    (hfield : (name, schema, some default) ∈ fields) (hname : name ∉ members.map (·.1)) :
    decode (.obj ((name, default) :: members)) = decode (.obj members) := by
  have hmissing : name ∉ (known fields members).map (·.1) :=
    fun hmem => hname (map_subset _ (filter_subset_self members) hmem)
  refine decode_eq_of_known hdecode hread ?_ ?_
  · rw [known_cons_field (mem_names hfield), map_cons, nodup_cons, and_iff_right hmissing]
  · intro _ _ name' schema' default' hfield'
    rw [known_cons_field (mem_names hfield), lookup_cons]
    by_cases hsame : name' = name
    · subst hsame
      obtain ⟨rfl, rfl⟩ := field_unique hunique hfield hfield'
      have hnone : (known fields members).lookup name' = none := by
        rw [lookup_eq_none_iff]
        intro member hmember
        rw [bne_iff_ne]
        rintro rfl
        exact hmissing (mem_map_of_mem (f := (·.1)) hmember)
      rw [beq_self_eq_true, hnone]
      exact .inl rfl
    · rw [beq_false_of_ne hsame]
      exact .of_eq rfl

/-- A decoder that reads the fields of an object respects the record's schema. -/
theorem respects_record : (Schema.record fields).Respects decode := by
  intro j j' h
  generalize hschema : Schema.record fields = whole at h
  induction h with
  | refl => rfl
  | symm _ ih => exact (ih hschema).symm
  | trans _ _ ih ih' => exact (ih hschema).trans (ih' hschema)
  | item | content => cases hschema
  | field before after hfield halike =>
    cases hschema
    exact decode_field hdecode hread hunique before after hfield halike
  | permute hperm =>
    cases hschema
    exact decode_permute hdecode hread hperm
  | @extra _ members name j hname =>
    cases hschema
    have hknown : known fields ((name, j) :: members) = known fields members :=
      filter_cons_of_neg (mt contains_iff_mem.mp hname)
    rw [hdecode, hdecode, ofJson?_obj, ofJson?_obj, hknown]
  | omitted hfield hname =>
    cases hschema
    exact decode_omitted hdecode hread hunique hfield hname

end Generators

namespace Reads

variable {α β : Type} {name : String} {schema : Schema} {decode : Json → Option α}

theorem pure (a : α) : Reads fields fun _ => some a := fun _ _ _ => rfl

theorem bind {read : Fields → Option α} {next : α → Fields → Option β} (hread : Reads fields read)
    (hnext : ∀ a, Reads fields (next a)) : Reads fields fun f => read f >>= fun a => next a f := by
  intro f f' hmatches
  dsimp only
  rw [hread hmatches]
  exact congrArg (read f' >>= ·) (funext fun a => hnext a hmatches)

theorem required (hfield : (name, schema, none) ∈ fields) (hdecode : schema.Respects decode) :
    Reads fields fun f => f.required? name decode := by
  intro f f' hmatches
  have hgiven := (hmatches.given hfield).bind_eq hdecode
  rwa [Option.or_none, Option.or_none] at hgiven

/-- A field that is taken as it is. -/
theorem taken (hfield : (name, leaf, none) ∈ fields) : Reads fields fun f => f.required? name decode :=
  .required hfield (respects_leaf decode)

theorem withDefault (default : Json) {a : α} (hfield : (name, schema, some default) ∈ fields)
    (hdecode : schema.Respects decode) (hdefault : decode default = some a) :
    Reads fields fun f => f.withDefault? name a decode := by
  have hvalue (f : Fields) : f.withDefault? name a decode =
      ((f.given.lookup name).or (some default)).bind decode := by
    unfold withDefault?
    cases f.given.lookup name with
    | none => exact hdefault.symm
    | some j => rfl
  intro f f' hmatches
  dsimp only
  rw [hvalue, hvalue]
  exact (hmatches.given hfield).bind_eq hdecode

theorem optional (hfield : (name, leaf, some .null) ∈ fields) :
    Reads fields fun f => f.optional? name decode := by
  have hvalue {f : Fields} (hnamed : f.named = true) : f.optional? name decode =
      ((f.given.lookup name).or (some .null)).bind (Json.toOption? decode) := by
    unfold optional?
    rw [hnamed]
    cases f.given.lookup name with
    | none => rfl
    | some j => cases j <;> rfl
  intro f f' hmatches
  dsimp only
  rw [hvalue hmatches.named, hvalue hmatches.named']
  exact (hmatches.given hfield).bind_eq (respects_leaf _)

end Reads

end Schema

end CoreC.Json
