import Clausal.Config.Text
import Clausal.Proofs.Capital
import Clausal.Proofs.Operations

/-!
# Names in use are words

Names come into a registry by definitions, by renaming, and by minting on the prefix of a
configuration. Definitions check their names and the reader of configurations checks the prefix
(`Config.Accepted.is_word`), so all names of a registry are words, as long as nothing is minted on a
base that is none (`run_names_are_words`).
-/

namespace Clausal

variable {r r' : Registry} {op : Operation} {ops : List Operation} {cfg : Config} {base : String}

/-! ## Prefixes of configurations -/

/-- Settings that nobody wrote by hand: the default ones, those with another limit, and those read
from a text. -/
inductive Config.Accepted : Config → Prop where
  | default : Accepted {}
  | ofLimit (limit : Nat) : Accepted (.ofLimit limit)
  | read {text : String} {cfg : Config} : Config.read text = .ok cfg → Accepted cfg

/-- Reading refuses a prefix that is not a word. -/
theorem Config.read_is_word {text : String} (h : Config.read text = .ok cfg) :
    Text.isWord cfg.skolemPrefix = true := by
  unfold Config.read at h
  split at h
  · unfold validate at h
    split at h
    · next hword => exact Except.ok.inj h ▸ hword
    · cases h
  · cases h

theorem Config.Accepted.is_word (h : cfg.Accepted) : Text.isWord cfg.skolemPrefix = true := by
  have hdefault : Text.isWord "sk" = true := by decide
  cases h with
  | default | ofLimit => exact hdefault
  | read hread => exact Config.read_is_word hread

/-- The operation mints on words only, such as the prefixes of accepted settings. -/
def Operation.MintsOnWords : Operation → Prop
  | mintConstant base | mintFunction base _ => Text.isWord base = true
  | skolemize cfg _ | toCnf cfg _ | toClauses cfg _ | clausifyAxioms cfg => cfg.Accepted
  | _ => True

theorem Operation.MintsOnWords.bases (h : op.MintsOnWords) :
    ∀ base ∈ op.bases, Text.isWord base = true := by
  cases op with
  | mintConstant | mintFunction => exact List.forall_mem_singleton.2 h
  | skolemize | toCnf | toClauses | clausifyAxioms => exact List.forall_mem_singleton.2 h.is_word
  | _ => exact fun _ hbase => absurd hbase List.not_mem_nil

/-! ## Names of constants and Skolem functions -/

/-- A word stays one when it is numbered. -/
theorem Text.is_word_append_repr (h : Text.isWord base = true) (k : Nat) :
    Text.isWord (base ++ k.repr) = true :=
  is_word_append h fun _ => not_blank_of_mem_repr

/-- The constants and Skolem functions are named by words. -/
abbrev Registry.HoldsWords : Registry → Prop :=
  ForEach (fun c => Text.isWord c.name = true) fun s => Text.isWord s.name = true

theorem maintains_words (hop : op.MintsOnWords) : op.Maintains Registry.HoldsWords := by
  have hword {base : String} (hbase : base ∈ op.bases) (k : Nat) :
      Text.isWord (base ++ k.repr) = true := Text.is_word_append_repr (hop.bases base hbase) k
  refine maintains_each (fun name r c r' h => ?_) (fun _ => hword) fun _ hbase k _ => hword hbase k
  obtain ⟨hgiven, hname, -, -⟩ := define_constant_yields h
  exact hname ▸ Text.is_word_capitalize hgiven

/-! ## All names -/

/-- After operations on variables such as users can get, minting on words only, every name in the
registry is not empty and holds no blank, and its variables are again such as users can get. -/
theorem run_names_are_words (hops : ∀ op ∈ ops, op.Admissible ∧ op.MintsOnWords) :
    let r := run ops .empty
    (∀ name ∈ r.termNames ++ r.preds.map (·.name),
      name ≠ "" ∧ ∀ c ∈ name.toList, Text.isBlank c = false) ∧ ∀ v ∈ r.vars, v.Issued := by
  intro r
  have hsound : r.Sound := run_sound (fun op hop => (hops op hop).1) .empty
  have hwords : r.HoldsWords :=
    run_preserves (fun op hop => maintains_words (hops op hop).2) .empty
  refine ⟨fun name hname => Text.is_word_iff.1 ?_, hsound.issued⟩
  simp only [Registry.termNames, List.mem_append, List.mem_map] at hname
  rcases hname with ((⟨c, hc, rfl⟩ | ⟨v, hv, rfl⟩) | ⟨s, hs, rfl⟩) | ⟨p, hp, rfl⟩
  · exact hwords.consts c hc
  · exact (hsound.issued v hv).is_word
  · exact hwords.skolems s hs
  · exact (hsound.applicable p hp).1

namespace Sample

/-- Settings read from a text. -/
def terse : Config := { skolemPrefix := "f" }

/-- Definitions, and a conversion that mints a constant. -/
def naming : List Operation :=
  [.defineConstant "anna", .defineVariable "x" none,
    .toCnf terse (.ex [x] (holding "P" [.var x]))]

end Sample

open Sample in
theorem run_names_are_words_naming :
    Config.read "\x7b\"skolem_prefix\": \"f\"\x7d" = .ok terse ∧
      (∀ op ∈ naming, op.Admissible ∧ op.MintsOnWords) ∧
      let r := run naming .empty
      r.termNames = ["Anna", "f0", "x"] ∧ (∀ name ∈ r.termNames ++ r.preds.map (·.name),
        name ≠ "" ∧ ∀ c ∈ name.toList, Text.isBlank c = false) ∧ ∀ v ∈ r.vars, v.Issued := by
  have hread : Config.read "\x7b\"skolem_prefix\": \"f\"\x7d" = .ok terse := by decide +kernel
  have hdefined : (defineVariable "x" none).Yields .empty x (Registry.empty.addVariable x) :=
    ⟨rfl, rfl⟩
  have hissued : (Formula.ex [x] (holding "P" [.var x])).Issued := by
    have hvariables : ∀ v ∈ [x, x], v.Issued := by simpa using ⟨none, .defined hdefined⟩
    exact hvariables
  have hops : ∀ op ∈ naming, op.Admissible ∧ op.MintsOnWords := by
    simpa [naming, Operation.Admissible, Operation.MintsOnWords] using ⟨hissued, .read hread⟩
  exact ⟨hread, hops, by decide +kernel, run_names_are_words hops⟩

end Clausal
