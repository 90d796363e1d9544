import Chording.Config.Json
import Chording.Proofs.JsonTexts

/-!
# Configurations read back from JSON

A configuration is read back from its JSON text.  More than that: an object with some of its fields, in any order and
among any other members, gives the configuration that has these fields and the default value of every other one, in
whatever way the object is written (`Config.json_reads_back`).
-/

namespace Chording

/-! ### Values that read back -/

namespace Json

private theorem mapM_map_eq_some {α β γ : Type} {read? : β → Option γ} {write : α → β} {result : α → γ} {xs : List α}
    (h : ∀ x ∈ xs, read? (write x) = some (result x)) : (xs.map write).mapM read? = some (xs.map result) := by
  induction xs with
  | nil => rfl
  | cons x xs ih =>
    obtain ⟨hx, hxs⟩ := List.forall_mem_cons.1 h
    rw [List.map_cons, List.mapM_cons, hx, ih hxs]
    rfl

private theorem toNat?_ofNat {largest n : Nat} (h : n ≤ largest) : (ofNat n).toNat? largest = some n := by
  have hdigits : (Radix.decimal.write n).all Char.isDigit = true :=
    List.all_eq_true.2 fun _ hc => Token.isDigit_of_mem_write hc
  rw [ofNat, toNat?, if_pos hdigits, Radix.read_write h]
  rfl

private theorem toList?_array {α : Type} {read? : Json → Option α} {write : α → Json}
    (h : ∀ x, read? (write x) = some x) (xs : List α) : (array (xs.map write)).toList? read? = some xs := by
  have hread : (xs.map write).mapM read? = some (xs.map id) := mapM_map_eq_some fun x _ => h x
  rwa [List.map_id] at hread

end Json

private theorem KeyCode.ofJson?_toJson (key : KeyCode) : ofJson? key.toJson = some key := by
  have hle : key.usage.toNat ≤ UInt16.size - 1 := Nat.le_sub_one_of_lt key.usage.toNat_lt
  rw [toJson, ofJson?, Json.toNat?_ofNat hle]
  simp

private theorem LayerSet.ofJson?_toJson (s : LayerSet) : ofJson? s.toJson = some s := by
  have hle : s.bits.toNat ≤ UInt32.size - 1 := Nat.le_sub_one_of_lt s.bits.isLt
  rw [toJson, ofJson?, Json.toNat?_ofNat hle, Option.map_some, BitVec.ofNat_toNat, BitVec.setWidth_eq]

private theorem OverflowPolicy.ofJson?_toJson (policy : OverflowPolicy) : ofJson? policy.toJson = some policy := by
  cases policy <;> decide +kernel

private theorem Config.wordOfJson?_ofNat (n : UInt64) : wordOfJson? (.ofNat n.toNat) = some n := by
  have hle : n.toNat ≤ UInt64.size - 1 := Nat.le_sub_one_of_lt n.toNat_lt
  rw [wordOfJson?, Json.toNat?_ofNat hle]
  simp

/-! ### Fields of a record -/

namespace Json

/-- The members of an object, each with the text that its name is. -/
def Named (members : List (List StringPart × Json)) (named : List (List Char × Json)) : Prop :=
  members.mapM (fun m => (StringPart.text? m.1).map (·, m.2)) = some named

/-- The members are the given ones of the fields, in any order and among any members with other names. -/
def FieldsIn (fields : List (String × Json)) (given : List String) (members : List (List StringPart × Json)) : Prop :=
  ∃ named unknown, Named members named ∧
    named.Perm (((fields.filter fun f => f.1 ∈ given).map fun f => (f.1.toList, f.2)) ++ unknown) ∧
    ∀ m ∈ unknown, ∀ f ∈ fields, m.1 ≠ f.1.toList

variable {fields : List (String × Json)} {given : List String} {members : List (List StringPart × Json)}

/-- An object of the fields is one with all of them and no other members. -/
private theorem fieldsIn_all (fields : List (String × Json)) :
    FieldsIn fields (fields.map (·.1)) (fields.map fun f => (StringPart.ofText f.1.toList, f.2)) := by
  refine ⟨fields.map fun f => (f.1.toList, f.2), [], ?_, ?_, fun _ h => absurd h List.not_mem_nil⟩
  · exact mapM_map_eq_some fun f _ => by rw [StringPart.text?_ofText, Option.map_some]
  · have hall : ∀ f ∈ fields, decide (f.1 ∈ fields.map (·.1)) = true := fun f hf =>
      decide_eq_true (List.mem_map_of_mem hf)
    rw [List.filter_eq_self.2 hall, List.append_nil]

/-- The order of the members does not count. -/
private theorem member?_of_perm {named named' : List (List Char × Json)} {name : String} {value? : Option Json}
    (hp : named.Perm named')
    (h : (named'.filter fun m => m.1 = name.toList) = value?.toList.map (name.toList, ·)) :
    member? named name = some value? := by
  have hfilter := hp.filter fun m => m.1 = name.toList
  rw [h] at hfilter
  cases value? with
  | none => rw [member?, hfilter.eq_nil]
  | some v => rw [member?, List.perm_singleton.1 hfilter]

/-- Of fields with different names there is one of each name. -/
private theorem filter_of_nodup (hn : (fields.map (·.1)).Nodup) {f : String × Json} (hmem : f ∈ fields) :
    (fields.filter fun f' => f'.1 = f.1) = [f] := by
  induction fields with
  | nil => exact absurd hmem List.not_mem_nil
  | cons first others ih =>
    obtain ⟨hfirst, hn⟩ := List.nodup_cons.1 hn
    rcases List.mem_cons.1 hmem with rfl | hmem
    · have hnone : (others.filter fun f' => f'.1 = f.1) = [] :=
        List.filter_eq_nil_iff.2 fun f' hf' hname => hfirst (List.mem_map.2 ⟨f', hf', of_decide_eq_true hname⟩)
      rw [List.filter_cons_of_pos (by simp), hnone]
    · have hne : first.1 ≠ f.1 := fun heq => hfirst (List.mem_map.2 ⟨f, hmem, heq.symm⟩)
      rw [List.filter_cons_of_neg (by simpa using hne), ih hn hmem]

/-- What is left of a field if only the given ones are kept. -/
private theorem filter_given (hn : (fields.map (·.1)).Nodup) {f : String × Json} (hmem : f ∈ fields)
    (given : List String) :
    (((fields.filter fun f' => f'.1 ∈ given).map fun f' => (f'.1.toList, f'.2)).filter fun m => m.1 = f.1.toList) =
      (if f.1 ∈ given then some f.2 else none).toList.map (f.1.toList, ·) := by
  have hname : ((fun m : List Char × Json => decide (m.1 = f.1.toList)) ∘ fun f' => (f'.1.toList, f'.2)) =
      fun f' : String × Json => decide (f'.1 = f.1) := by
    funext f'
    simp [String.toList_inj]
  rw [List.filter_map, hname, List.filter_comm, filter_of_nodup hn hmem]
  by_cases hg : f.1 ∈ given <;> simp [hg]

/-- A record has the given fields and no others. -/
private theorem members?_of_fieldsIn (hn : (fields.map (·.1)).Nodup) (h : FieldsIn fields given members) :
    (object members).members? (fields.map (·.1)) =
      some (fields.map fun f => if f.1 ∈ given then some f.2 else none) := by
  obtain ⟨named, unknown, hnamed, hperm, hunknown⟩ := h
  have hmember : ∀ f ∈ fields, member? named f.1 = some (if f.1 ∈ given then some f.2 else none) := by
    intro f hf
    have hnone : (unknown.filter fun m => m.1 = f.1.toList) = [] :=
      List.filter_eq_nil_iff.2 fun m hm hname => hunknown m hm f hf (of_decide_eq_true hname)
    refine member?_of_perm hperm ?_
    rw [List.filter_append, filter_given hn hf given, hnone, List.append_nil]
  rw [members?, show _ = some named from hnamed]
  exact mapM_map_eq_some hmember

/-- An object of fields renders if their values do. -/
private theorem renders_of_fields (h : ∀ f ∈ fields, f.2.Renders) :
    (object (fields.map fun f => (StringPart.ofText f.1.toList, f.2))).Renders := by
  refine renders_object (List.forall_mem_map.2 fun f hf => ?_)
  exact ⟨⟨f.1.toList, rfl⟩, h f hf⟩

end Json

/-! ### Chords -/

namespace ChordDef

/-- The members of a chord with their names. -/
def fields (d : ChordDef) : List (String × Json) :=
  memberNames.zip [.array (d.keys.map KeyCode.toJson), d.action.toJson]

private theorem ofJson?_toJson (d : ChordDef) : ofJson? d.toJson = some d := by
  have hn : (d.fields.map (·.1)).Nodup := show memberNames.Nodup by decide
  have hmembers : d.toJson.members? memberNames =
      some [some (.array (d.keys.map KeyCode.toJson)), some d.action.toJson] :=
    Json.members?_of_fieldsIn hn (Json.fieldsIn_all d.fields)
  rw [ofJson?, hmembers]
  simp only [Json.toList?_array KeyCode.ofJson?_toJson, KeyCode.ofJson?_toJson]
  rfl

private theorem renders_toJson (d : ChordDef) : d.toJson.Renders := by
  have hkeys : ∀ v ∈ d.keys.map KeyCode.toJson, v.Renders :=
    List.forall_mem_map.2 fun key _ => Json.renders_ofNat key.usage.toNat
  have hvalues : ∀ f ∈ d.fields, f.2.Renders := by
    simp only [fields, memberNames, List.zip_cons_cons, List.zip_nil_right, List.forall_mem_cons]
    exact ⟨Json.renders_array hkeys, Json.renders_ofNat _, fun _ h => absurd h List.not_mem_nil⟩
  exact Json.renders_of_fields hvalues

end ChordDef

/-! ### Configurations -/

namespace Config

/-- The members of a configuration with their names. -/
def fields (c : Config) : List (String × Json) :=
  memberNames.zip
    [.array (c.chords.map ChordDef.toJson), .ofNat c.timeout.toNat, .ofNat c.capacity.toNat, c.disabledLayers.toJson,
      c.overflow.toJson]

/-- The configuration with the given fields only: every other one has its default value. -/
def keeping (c : Config) (given : List String) : Config :=
  let default : Config := {}
  { chords := if "chords" ∈ given then c.chords else default.chords
    timeout := if "timeout_ms" ∈ given then c.timeout else default.timeout
    capacity := if "queue_capacity" ∈ given then c.capacity else default.capacity
    disabledLayers := if "disabled_layers" ∈ given then c.disabledLayers else default.disabledLayers
    overflow := if "overflow" ∈ given then c.overflow else default.overflow }

private theorem keeping_memberNames (c : Config) : c.keeping memberNames = c := by
  simp [keeping, memberNames]

private theorem memberOr_ite {α : Type} {default x : α} {read? : Json → Option α} {v : Json} (h : read? v = some x)
    (p : Prop)
    [Decidable p] : memberOr default read? (if p then some v else none) = some (if p then x else default) := by
  split
  · exact h
  · rfl

/-- The given fields of a configuration, in any order and among any other members, give the configuration with these
fields only. -/
private theorem ofJson?_of_fieldsIn {c : Config} {given : List String} {members : List (List Json.StringPart × Json)}
    (h : Json.FieldsIn c.fields given members) : ofJson? (.object members) = some (c.keeping given) := by
  have hn : (c.fields.map (·.1)).Nodup := show memberNames.Nodup by decide
  have hmembers : (Json.object members).members? memberNames = some (c.fields.map fun f =>
      if f.1 ∈ given then some f.2 else none) := Json.members?_of_fieldsIn hn h
  simp only [fields, memberNames, List.zip_cons_cons, List.zip_nil_right, List.map_cons, List.map_nil] at hmembers
  rw [ofJson?, memberNames, hmembers]
  simp only [memberOr_ite (Json.toList?_array ChordDef.ofJson?_toJson c.chords), memberOr_ite (wordOfJson?_ofNat _),
    memberOr_ite (LayerSet.ofJson?_toJson _), memberOr_ite (OverflowPolicy.ofJson?_toJson _)]
  rfl

private theorem renders_toJson (c : Config) : c.toJson.Renders := by
  have hchords : ∀ v ∈ c.chords.map ChordDef.toJson, v.Renders :=
    List.forall_mem_map.2 fun d _ => d.renders_toJson
  have hvalues : ∀ f ∈ c.fields, f.2.Renders := by
    simp only [fields, memberNames, List.zip_cons_cons, List.zip_nil_right, List.forall_mem_cons]
    exact ⟨Json.renders_array hchords, Json.renders_ofNat _, Json.renders_ofNat _, Json.renders_ofNat _,
      Json.renders_ofText _, fun _ h => absurd h List.not_mem_nil⟩
  exact Json.renders_of_fields hvalues

/-- Some fields of a configuration, in any order and among any other members, in an object that is written in any way,
are read as the configuration with these fields and the default value of every other one.  With all fields and nothing
else that is so of its own text. -/
theorem json_reads_back (c : Config) :
    parseJson? c.renderJson = some c ∧
      ∀ (given : List String) (members : List (List Json.StringPart × Json)) (text : List Char),
        Json.FieldsIn c.fields given members → (Json.object members).WrittenAs text →
          parseJson? text = some (c.keeping given) := by
  have hread : ∀ given members text, Json.FieldsIn c.fields given members → (Json.object members).WrittenAs text →
      parseJson? text = some (c.keeping given) := by
    intro given members text hfields htext
    rw [parseJson?, Json.parse?_of_writtenAs htext, Option.bind_some, ofJson?_of_fieldsIn hfields]
  refine ⟨?_, hread⟩
  have hown := hread memberNames _ c.renderJson (Json.fieldsIn_all c.fields) (Json.writtenAs_render c.renders_toJson)
  rwa [keeping_memberNames] at hown

/-- The capacity is given and the chords are not, with a member that no configuration has before it. -/
theorem json_reads_back_capacity :
    parseJson? " \x7b \"x\" : null , \"queue_capacity\" : 0 \x7d".toList = some { capacity := 0 } := by
  let c : Config := { chords := [⟨[⟨9⟩, ⟨21⟩], ⟨43⟩⟩], capacity := 0 }
  let members : List (List Json.StringPart × Json) :=
    [(Json.StringPart.ofText "x".toList, .null), (Json.StringPart.ofText "queue_capacity".toList, .ofNat 0)]
  have hother : ∀ name ∈ memberNames, "x".toList ≠ name.toList := by decide
  have hfields : Json.FieldsIn c.fields ["queue_capacity"] members :=
    ⟨[("x".toList, .null), ("queue_capacity".toList, .ofNat 0)], [("x".toList, .null)], rfl, .swap ..,
      List.forall_mem_singleton.2 fun f hf => hother f.1 (List.of_mem_zip hf).1⟩
  have hrenders : (Json.object members).Renders := by
    refine Json.renders_object (List.forall_mem_cons.2 ⟨⟨⟨_, rfl⟩, Json.renders_null⟩, ?_⟩)
    exact List.forall_mem_singleton.2 ⟨⟨_, rfl⟩, Json.renders_ofNat 0⟩
  have hblank : Json.Token.AllSpace [' '] := List.forall_mem_singleton.2 rfl
  have hwritten := Json.writtenAs_of_renders hrenders hblank
  have htext : ((Json.object members).tokens.flatMap fun token => [' '] ++ token.render) =
      " \x7b \"x\" : null , \"queue_capacity\" : 0 \x7d".toList := by decide +kernel
  rw [htext] at hwritten
  exact (json_reads_back c).2 ["queue_capacity"] members _ hfields hwritten

end Config

end Chording
