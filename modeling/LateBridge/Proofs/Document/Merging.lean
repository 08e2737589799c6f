import LateBridge.Json.Decode
import Mathlib.Data.List.Induction
import Mathlib.Data.List.Nodup

/-!
# Proofs/Document/Merging — of several members the last

    a: 1, b: 2, a: 3 ──merged──▸ a: 3, b: 2

A value that is kept names every member of an object once (`namesOnce_merged`), and one that does so
is kept as it is (`merged_eq_self`); so it makes no difference to keep it twice (`merged_merged`).
Nothing is kept that could not be read (`readable_merged`).
-/

namespace LateBridge.Json

/-- **Induction on values**, with one hypothesis for all that an array or an object holds. -/
@[elab_as_elim]
theorem induct {P : Json → Prop} (null : P .null) (bool : ∀ b, P (.bool b))
    (number : ∀ n, P (.number n)) (string : ∀ s, P (.string s))
    (array : ∀ items, (∀ v ∈ items, P v) → P (.array items))
    (object : ∀ members, (∀ m ∈ members, P m.2) → P (.object members))
    (unreadable : P .unreadable) (j : Json) : P j :=
  @Json.rec P (fun items => ∀ v ∈ items, P v) (fun members => ∀ m ∈ members, P m.2)
    (fun m => P m.2) null bool number string array object unreadable (List.forall_mem_nil _)
    (fun _ _ hhead htail => List.forall_mem_cons.mpr ⟨hhead, htail⟩) (List.forall_mem_nil _)
    (fun _ _ hhead htail => List.forall_mem_cons.mpr ⟨hhead, htail⟩) (fun _ _ h => h) j

/-- A list stays as it is exactly if each of its elements does. -/
theorem map_eq_self_iff {α : Type} {f : α → α} {as : List α} :
    as.map f = as ↔ ∀ a ∈ as, f a = a := by
  simpa only [List.map_id, id] using List.map_inj_left (g := id)

variable {members : List (String × Json)} {name : String} {value : Json} {m : String × Json}

/-! ## Members -/

theorem setMember_of_notMem (h : name ∉ members.map Prod.fst) :
    setMember name value members = members ++ [(name, value)] := by
  induction members with
  | nil => rfl
  | cons m members ih =>
    obtain ⟨hne, hrest⟩ := List.ne_and_not_mem_of_not_mem_cons h
    rw [setMember, if_neg (Ne.symm hne), ih hrest, List.cons_append]

/-- Only a new name is added. -/
theorem names_setMember : (setMember name value members).map Prod.fst =
    if name ∈ members.map Prod.fst then members.map Prod.fst
    else members.map Prod.fst ++ [name] := by
  split
  · rename_i h
    induction members with
    | nil => cases h
    | cons m members ih =>
      rw [setMember]
      split
      · rfl
      · rename_i hne
        rw [List.map_cons, List.map_cons, ih ((List.mem_cons.mp h).resolve_left (Ne.symm hne))]
  · rename_i h
    rw [setMember_of_notMem h, List.map_append, List.map_singleton]

theorem mem_of_mem_setMember (h : m ∈ setMember name value members) :
    m ∈ members ∨ m = (name, value) := by
  induction members with
  | nil => exact .inr (List.mem_singleton.mp h)
  | cons first members ih =>
    rw [setMember] at h
    split at h
    · rename_i hname
      obtain rfl | h := List.mem_cons.mp h
      · exact .inr (congrArg (·, value) hname)
      · exact .inl (.tail _ h)
    · obtain rfl | h := List.mem_cons.mp h
      · exact .inl (.head _)
      · exact (ih h).imp_left (.tail _)

theorem lastMembers_concat :
    lastMembers (members ++ [m]) = setMember m.1 m.2 (lastMembers members) := by
  rw [lastMembers, List.foldl_append]
  rfl

/-- **No name is kept twice.** -/
theorem nodup_lastMembers (members : List (String × Json)) :
    ((lastMembers members).map Prod.fst).Nodup := by
  induction members using List.reverseRecOn with
  | nil => exact List.nodup_nil
  | append_singleton members m ih =>
    rw [lastMembers_concat, names_setMember]
    split
    · exact ih
    · rename_i h
      exact ih.append (List.nodup_singleton _) (List.disjoint_singleton.mpr h)

theorem mem_of_mem_lastMembers (h : m ∈ lastMembers members) : m ∈ members := by
  induction members using List.reverseRecOn with
  | nil => cases h
  | append_singleton members last ih =>
    rw [lastMembers_concat] at h
    obtain h | rfl := mem_of_mem_setMember h
    · exact List.mem_append_left _ (ih h)
    · exact List.mem_append_right _ (List.mem_singleton_self _)

/-- **Members without a repeated name are all kept.** -/
theorem lastMembers_eq_self (h : (members.map Prod.fst).Nodup) : lastMembers members = members := by
  induction members using List.reverseRecOn with
  | nil => rfl
  | append_singleton members m ih =>
    rw [List.map_append, List.map_singleton, List.nodup_append'] at h
    obtain ⟨hmembers, -, hnew⟩ := h
    rw [lastMembers_concat, ih hmembers, setMember_of_notMem (List.disjoint_singleton.mp hnew)]

/-! ## Values -/

mutual

/-- **No object in a value repeats a name.** -/
def namesOnce : Json → Bool
  | .array items => allNamesOnce items
  | .object members => decide (members.map Prod.fst).Nodup && membersNamesOnce members
  | _ => true

/-- No object in any of the items repeats a name. -/
def allNamesOnce : List Json → Bool
  | [] => true
  | item :: rest => item.namesOnce && allNamesOnce rest

/-- No object in any of the members repeats a name. -/
def membersNamesOnce : List (String × Json) → Bool
  | [] => true
  | (_, value) :: rest => value.namesOnce && membersNamesOnce rest

end

theorem namesOnce_array {items : List Json} :
    (Json.array items).namesOnce ↔ ∀ v ∈ items, v.namesOnce := by
  rw [namesOnce]
  induction items with
  | nil => simp [allNamesOnce]
  | cons v items ih => rw [allNamesOnce, Bool.and_eq_true, ih, List.forall_mem_cons]

theorem namesOnce_object : (Json.object members).namesOnce ↔
    (members.map Prod.fst).Nodup ∧ ∀ m ∈ members, m.2.namesOnce := by
  have hvalues : membersNamesOnce members ↔ ∀ m ∈ members, m.2.namesOnce := by
    induction members with
    | nil => simp [membersNamesOnce]
    | cons m members ih => rw [membersNamesOnce, Bool.and_eq_true, ih, List.forall_mem_cons]
  rw [namesOnce, Bool.and_eq_true, decide_eq_true_iff, hvalues]

theorem readable_array {items : List Json} :
    (Json.array items).readable ↔ ∀ v ∈ items, v.readable := by
  rw [readable]
  induction items with
  | nil => simp [allReadable]
  | cons v items ih => rw [allReadable, Bool.and_eq_true, ih, List.forall_mem_cons]

theorem readable_object : (Json.object members).readable ↔ ∀ m ∈ members, m.2.readable := by
  rw [readable]
  induction members with
  | nil => simp [membersReadable]
  | cons m members ih => rw [membersReadable, Bool.and_eq_true, ih, List.forall_mem_cons]

theorem merged_array (items : List Json) : (Json.array items).merged = .array (items.map merged) := by
  have hitems : ∀ items, mergedItems items = items.map merged := fun items => by
    induction items with
    | nil => rfl
    | cons v items ih => rw [mergedItems, ih, List.map_cons]
  rw [merged, hitems]

theorem merged_object (members : List (String × Json)) : (Json.object members).merged =
    .object (lastMembers (members.map fun m => (m.1, m.2.merged))) := by
  have hmembers : ∀ members, mergedMembers members = members.map fun m => (m.1, m.2.merged) :=
    fun members => by
      induction members with
      | nil => rfl
      | cons m members ih => rw [mergedMembers, ih, List.map_cons]
  rw [merged, hmembers]

/-- **What is kept repeats no name.** -/
theorem namesOnce_merged (j : Json) : j.merged.namesOnce := by
  induction j using induct with
  | array items ih =>
    rw [merged_array, namesOnce_array, List.forall_mem_map]
    exact ih
  | object members ih =>
    rw [merged_object, namesOnce_object]
    refine ⟨nodup_lastMembers _, fun m hm => ?_⟩
    obtain ⟨written, hwritten, rfl⟩ := List.mem_map.mp (mem_of_mem_lastMembers hm)
    exact ih written hwritten
  | _ => rfl

/-- **What repeats no name is kept as it is.** -/
theorem merged_eq_self {j : Json} (h : j.namesOnce) : j.merged = j := by
  induction j using induct with
  | array items ih =>
    rw [merged_array, map_eq_self_iff.mpr fun v hv => ih v hv (namesOnce_array.mp h v hv)]
  | object members ih =>
    obtain ⟨hnames, hvalues⟩ := namesOnce_object.mp h
    have hmembers : members.map (fun m => (m.1, m.2.merged)) = members :=
      map_eq_self_iff.mpr fun m hm => congrArg (m.1, ·) (ih m hm (hvalues m hm))
    rw [merged_object, hmembers, lastMembers_eq_self hnames]
  | _ => rfl

theorem merged_merged (j : Json) : j.merged.merged = j.merged := merged_eq_self j.namesOnce_merged

/-- **What is kept can be read** if all of the value could. -/
theorem readable_merged {j : Json} (h : j.readable) : j.merged.readable := by
  induction j using induct with
  | array items ih =>
    rw [merged_array, readable_array, List.forall_mem_map]
    exact fun v hv => ih v hv (readable_array.mp h v hv)
  | object members ih =>
    rw [merged_object, readable_object]
    intro m hm
    obtain ⟨written, hwritten, rfl⟩ := List.mem_map.mp (mem_of_mem_lastMembers hm)
    exact ih written hwritten (readable_object.mp h written hwritten)
  | _ => exact h

end LateBridge.Json
