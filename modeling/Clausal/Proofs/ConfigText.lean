import Mathlib.Data.List.Nodup
import Mathlib.Data.List.Perm.Subperm
import Clausal.Config.Text
import Clausal.Proofs.Json

/-!
# Texts of configurations

A configuration is read back from its text, unless its prefix is refused (`read_to_json_write`).
The fields of a record are looked up by name (`Value.leading_fields_record`), so that their order
does not matter, and those that are left out are read as the defaults
(`of_json_with_defaults`).
-/

namespace Clausal

open Json (Value)

/-! ## Fields by name -/

section Lookup

variable {α β : Type} [BEq α] [LawfulBEq α] {xs ys : List (α × β)} {key : α} {v : β}

theorem lookup_eq_none_of_not_mem (h : key ∉ xs.map (·.1)) : xs.lookup key = none :=
  List.lookup_eq_none_iff.2 fun _ hp => bne_iff_ne.2 fun heq => h (heq ▸ List.mem_map_of_mem hp)

/-- Where no key is repeated, each entry is what its key finds. -/
theorem lookup_eq_of_mem (hnodup : (xs.map (·.1)).Nodup) (h : (key, v) ∈ xs) :
    xs.lookup key = some v := by
  obtain ⟨before, after, rfl⟩ := List.append_of_mem h
  refine List.lookup_eq_some_iff.2 ⟨before, after, rfl, fun p hp => bne_iff_ne.2 fun heq => ?_⟩
  rw [List.map_append, List.nodup_append] at hnodup
  exact hnodup.2.2 _ (List.mem_map_of_mem hp) _ (List.mem_cons_self ..) heq.symm

omit [BEq α] [LawfulBEq α] in
theorem nodup_keys_of_subperm (hnodup : (ys.map (·.1)).Nodup) (h : xs.Subperm ys) :
    (xs.map (·.1)).Nodup := by
  obtain ⟨zs, hperm, hsublist⟩ := h
  exact (hperm.map _).nodup_iff.1 (hnodup.sublist (hsublist.map _))

/-- Some of the entries, in any order, are found by their keys as before. -/
theorem lookup_of_subperm [DecidableEq α] (hnodup : (ys.map (·.1)).Nodup) (h : xs.Subperm ys) :
    xs.lookup key = if key ∈ xs.map (·.1) then ys.lookup key else none := by
  split
  · next hkey =>
      obtain ⟨⟨_, v⟩, hmem, rfl⟩ := List.mem_map.1 hkey
      have hxs : (xs.map (·.1)).Nodup := nodup_keys_of_subperm hnodup h
      rw [lookup_eq_of_mem hxs hmem, lookup_eq_of_mem hnodup (h.subset hmem)]
  · next hkey => exact lookup_eq_none_of_not_mem hkey

end Lookup

namespace Json

/-- The digits of a natural number stand for it. -/
theorem natural_repr (n : Nat) : natural? n.repr = some n := by
  have hdigits : n.repr.toList.all Char.isDigit = true := by
    rw [Nat.toList_repr, List.all_eq_true]
    exact fun c hc => Nat.isDigit_of_mem_toDigits (by decide) (by decide) hc
  rw [natural?, if_pos hdigits, Nat.toList_repr]
  exact congrArg some Nat.ofDigitChars_ten_toDigits

namespace Value

theorem count_nat {n : Nat} (h : n ≤ wordMax) : (nat n).count? = some n := by
  rw [nat, count?, natural_repr, Option.filter_some, decide_eq_true h, if_pos rfl]

theorem is_scannable_nat {n : Nat} : (nat n).IsScannable := .singleton ⟨n, rfl⟩

variable {members : List (String × Value)}

/-- Where no key is repeated, a member is what its key finds. -/
theorem member_record (h : (members.map (·.1)).Nodup) (key : String) :
    member? (members.map fun (k, v) => (some k, v)) key = some (members.lookup key) := by
  induction members with
  | nil => rfl
  | cons m members ih =>
      obtain ⟨hnot, hnodup⟩ := List.nodup_cons.1 h
      obtain ⟨k, v⟩ := m
      by_cases hkey : k = key
      · subst hkey
        have hrest : (members.map fun (k, v) => (some k, v)).filter (·.1 == some k) = [] := by
          refine List.filter_eq_nil_iff.2 (List.forall_mem_map.2 fun m hm hsame => hnot ?_)
          obtain ⟨key, w⟩ := m
          obtain rfl : key = k := Option.some.inj (eq_of_beq hsame)
          exact List.mem_map.2 ⟨_, hm, rfl⟩
        simp [member?, hrest]
      · have hlookup : ((k, v) :: members).lookup key = members.lookup key := by
          rw [List.lookup_cons, beq_eq_false_iff_ne.2 (Ne.symm hkey)]
        rw [hlookup, ← ih hnodup]
        simp [member?, hkey]

/-- The fields of a record are what their names find. -/
theorem leading_fields_record (h : (members.map (·.1)).Nodup) (names : List String) :
    (record members).leadingFields? names = some (names.map fun name => members.lookup name) := by
  have hkeys : (members.map fun (k, v) => (some k, v)).all (·.1.isSome) = true := by
    simp [List.all_map]
  have hmember : member? (members.map fun (k, v) => (some k, v)) =
      fun name => some (members.lookup name) :=
    funext (member_record h)
  rw [record, leadingFields?, namedFields?, if_pos hkeys, hmember]
  exact List.mapM_pure

end Value

end Json

/-! ## Configurations -/

namespace Config

variable {cfg : Config} {members : List (String × Value)}

/-- The fields of a configuration by name. -/
def fields (cfg : Config) : List (String × Value) :=
  [("domain_expansion_limit", .nat cfg.expansionLimit),
    ("skolem_functions", .bool cfg.skolemFunctions), ("skolem_prefix", .text cfg.skolemPrefix)]

theorem to_json_eq : cfg.toJson = .record cfg.fields := rfl

/-- All fields in order, with the defaults for those that are left out. -/
def withDefaults (members : List (String × Value)) : List (String × Value) :=
  (fields {}).map fun (key, v) => (key, (members.lookup key).getD v)

/-- The configuration with some fields of `cfg` and the defaults for all others. -/
def keep (cfg : Config) (keys : List String) : Config :=
  let fallback : Config := {}
  { expansionLimit :=
      if "domain_expansion_limit" ∈ keys then cfg.expansionLimit else fallback.expansionLimit
    skolemFunctions :=
      if "skolem_functions" ∈ keys then cfg.skolemFunctions else fallback.skolemFunctions
    skolemPrefix := if "skolem_prefix" ∈ keys then cfg.skolemPrefix else fallback.skolemPrefix }

/-- The configuration whose fields are read from these values, as far as there are any. -/
def ofFields? (limit functions skolemPrefix : Option Value) : Option Config := do
  let fallback : Config := {}
  return {
    expansionLimit := ← fieldOr fallback.expansionLimit Value.count? limit
    skolemFunctions := ← fieldOr fallback.skolemFunctions Value.bool? functions
    skolemPrefix := ← fieldOr fallback.skolemPrefix Value.text? skolemPrefix }

/-- The fields of a configuration may be written in any order. -/
theorem of_json_record (h : (members.map (·.1)).Nodup) :
    ofJson? (.record members) =
      ofFields? (members.lookup "domain_expansion_limit") (members.lookup "skolem_functions")
        (members.lookup "skolem_prefix") := by
  rw [ofJson?, Value.leading_fields_record h]
  rfl

/-- A field that is given its default is read like one that is left out. -/
theorem field_or_get_d {α : Type} {fallback : α} {read : Value → Option α} {v : Value}
    (h : read v = some fallback) (field : Option Value) :
    fieldOr fallback read (some (field.getD v)) = fieldOr fallback read field := by
  cases field with
  | none => exact h
  | some => rfl

theorem nodup_keys_fields (cfg : Config) : (cfg.fields.map (·.1)).Nodup := by
  have hkeys : cfg.fields.map (·.1) = fieldNames := rfl
  rw [hkeys]
  decide

theorem nodup_keys_with_defaults : ((withDefaults members).map (·.1)).Nodup :=
  nodup_keys_fields {}

/-- Fields that are left out are read as the defaults. -/
theorem of_json_with_defaults (h : (members.map (·.1)).Nodup) :
    ofJson? (.record (withDefaults members)) = ofJson? (.record members) := by
  have hlimit : (withDefaults members).lookup "domain_expansion_limit" =
      some ((members.lookup "domain_expansion_limit").getD (.nat 4096)) := rfl
  have hfunctions : (withDefaults members).lookup "skolem_functions" =
      some ((members.lookup "skolem_functions").getD (.bool true)) := rfl
  have hprefix : (withDefaults members).lookup "skolem_prefix" =
      some ((members.lookup "skolem_prefix").getD (.text "sk")) := rfl
  have hcount : (Value.nat 4096).count? = some ({} : Config).expansionLimit :=
    Value.count_nat (by decide)
  have hbool : (Value.bool true).bool? = some ({} : Config).skolemFunctions := rfl
  have htext : (Value.text "sk").text? = some ({} : Config).skolemPrefix := rfl
  rw [of_json_record nodup_keys_with_defaults, of_json_record h, hlimit, hfunctions, hprefix,
    ofFields?, ofFields?, field_or_get_d hcount, field_or_get_d hbool, field_or_get_d htext]

/-- All fields of a configuration are read back, whatever its prefix. -/
theorem of_json_to_json (h : cfg.expansionLimit ≤ Json.wordMax) :
    ofJson? cfg.toJson = some cfg := by
  have hcount := Value.count_nat h
  rw [to_json_eq, of_json_record cfg.nodup_keys_fields]
  change ofFields? (some (.nat cfg.expansionLimit)) (some (.bool cfg.skolemFunctions))
    (some (.text cfg.skolemPrefix)) = some cfg
  simp [ofFields?, fieldOr, hcount, Value.bool?, Value.text, Value.text?]

/-- Some fields of a configuration, in any order, completed by the defaults. -/
theorem with_defaults_of_subperm (h : members.Subperm cfg.fields) :
    withDefaults members = (cfg.keep (members.map (·.1))).fields := by
  have hfield (key : String) : members.lookup key =
      if key ∈ members.map (·.1) then cfg.fields.lookup key else none :=
    lookup_of_subperm cfg.nodup_keys_fields h
  have hlimit : cfg.fields.lookup "domain_expansion_limit" = some (.nat cfg.expansionLimit) := rfl
  have hfunctions : cfg.fields.lookup "skolem_functions" = some (.bool cfg.skolemFunctions) := rfl
  have hprefix : cfg.fields.lookup "skolem_prefix" = some (.text cfg.skolemPrefix) := rfl
  have hall : withDefaults members =
      [("domain_expansion_limit", (members.lookup "domain_expansion_limit").getD (.nat 4096)),
        ("skolem_functions", (members.lookup "skolem_functions").getD (.bool true)),
        ("skolem_prefix", (members.lookup "skolem_prefix").getD (.text "sk"))] := rfl
  rw [hall, hfield, hfield, hfield, hlimit, hfunctions, hprefix, keep, fields]
  split_ifs <;> rfl

/-! ## Texts -/

theorem is_scannable_fields : ∀ m ∈ cfg.fields, m.2.IsScannable := by
  simp [fields, Value.is_scannable_nat, Value.is_scannable_bool, Value.is_scannable_text]

/-- What becomes of the text of a value. -/
theorem read_of_value {text : String} {v : Value} (h : Value.read? text = some v) :
    read text = match ofJson? v with
      | some cfg => validate cfg
      | none => .error (.config .malformed) := by
  rw [read, h]
  rfl

/-- A configuration is read back from its text and validated then. -/
theorem read_to_json_write (h : cfg.expansionLimit ≤ Json.wordMax) :
    read cfg.toJson.write = validate cfg := by
  have hvalue : Value.read? cfg.toJson.write = some cfg.toJson :=
    Value.read_write (Value.is_scannable_record is_scannable_fields)
  rw [read_of_value hvalue, of_json_to_json h]

/-- Texts say the same if one of them leaves out fields that the other gives their defaults. -/
theorem read_with_defaults {text text' : String} (h : (members.map (·.1)).Nodup)
    (htext : Value.read? text = some (.record members))
    (htext' : Value.read? text' = some (.record (withDefaults members))) :
    read text = read text' := by
  rw [read_of_value htext, read_of_value htext', of_json_with_defaults h]

end Config

open Config

/-- A configuration is read back from its text, unless its prefix is no word. A text that lacks
some of the fields, or has them in another order, is read like the one that has all of them, with
the defaults for those that are missing. -/
theorem config_text_correct :
    (∀ cfg : Config, cfg.expansionLimit ≤ Json.wordMax →
      read cfg.toJson.write =
        if Text.isWord cfg.skolemPrefix then .ok cfg
        else .error (.config (.invalidPrefix cfg.skolemPrefix))) ∧
    (∀ members text text', (members.map (·.1)).Nodup →
      Value.read? text = some (.record members) →
      Value.read? text' = some (.record (withDefaults members)) → read text = read text') ∧
    ∀ (cfg : Config) (members : List (String × Value)), members.Subperm cfg.fields →
      withDefaults members = (cfg.keep (members.map (·.1))).fields ∧
        read (Value.record members).write = read (cfg.keep (members.map (·.1))).toJson.write := by
  refine ⟨fun cfg hlimit => read_to_json_write hlimit, fun _ _ _ => read_with_defaults,
    fun cfg members hmembers => ?_⟩
  have hall := with_defaults_of_subperm hmembers
  have hkeys : (members.map (·.1)).Nodup := nodup_keys_of_subperm cfg.nodup_keys_fields hmembers
  have htext : Value.read? (Value.record members).write = some (.record members) :=
    Value.read_write (Value.is_scannable_record fun m hm =>
      is_scannable_fields m (hmembers.subset hm))
  refine ⟨hall, read_with_defaults hkeys htext ?_⟩
  rw [hall]
  exact Value.read_write (Value.is_scannable_record is_scannable_fields)

namespace Sample

/-- The largest limit, and a prefix with a quote, a backslash and a control character. -/
def quoted : Config := ⟨0xFFFFFFFFFFFFFFFF, false, "\"\\\x01"⟩

/-- A prefix that is no word. -/
def blankPrefix : Config := ⟨16, true, "a\n"⟩

/-- Two fields, the last one first. -/
def lastFirst : List (String × Value) :=
  [("skolem_prefix", .text "\"\\\x01"), ("domain_expansion_limit", .nat 0xFFFFFFFFFFFFFFFF)]

end Sample

open Sample in
theorem config_text_correct_quoted :
    quoted.expansionLimit ≤ Json.wordMax ∧ read quoted.toJson.write = .ok quoted ∧
      read blankPrefix.toJson.write = .error (.config (.invalidPrefix "a\n")) ∧
      lastFirst.Subperm quoted.fields ∧
      read (Value.record lastFirst).write = .ok (quoted.keep (lastFirst.map (·.1))) ∧
      (quoted.keep (lastFirst.map (·.1))).skolemFunctions = true ∧
      read "{ }" = read (Value.record (fields {})).write := by
  have hlimit : quoted.expansionLimit ≤ Json.wordMax := by decide
  have hmembers : lastFirst.Subperm quoted.fields :=
    ⟨[("domain_expansion_limit", .nat 0xFFFFFFFFFFFFFFFF), ("skolem_prefix", .text "\"\\\x01")],
      .swap .., .cons_cons _ (.cons _ (List.Sublist.refl _))⟩
  obtain ⟨hread, hdefaults, hsome⟩ := config_text_correct
  refine ⟨hlimit, (hread quoted hlimit).trans (if_pos (by decide)),
    (hread blankPrefix (by decide)).trans (if_neg (by decide)), hmembers, ?_, by decide, ?_⟩
  · rw [(hsome quoted lastFirst hmembers).2, hread _ (by decide)]
    exact if_pos (by decide)
  · exact hdefaults [] _ _ .nil (by rfl)
      (Value.read_write (Value.is_scannable_record is_scannable_fields))

end Clausal
