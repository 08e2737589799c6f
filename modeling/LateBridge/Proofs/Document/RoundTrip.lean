import LateBridge.Document.Decode
import LateBridge.Document.Encode
import LateBridge.Proofs.Document.Merging

/-!
# Proofs/Document/RoundTrip — what comes back from the JSON of a graph document

    JSON ──decode──▸ document ──encode──▸ JSON ──decode──▸ settled document

Decoding a document, writing it and decoding again gives the document with its attribute arguments
settled (`GraphDocument.decode_encode`).  The decoders are built from few pieces — a member that must
be there, one with a default, one that may be null, an array of parts — and so is the proof: what a
decoder gives is read back from how it is written (`RoundTrips`), or comes back changed in a certain
way (`ReadsBack`), and each piece hands that on from its parts to the whole.

Two places need more.  The forms of an attribute argument overlap.  A plain value fits none of them
when all members of its object are looked at, but it keeps only the last of those with one name, and
what is left may fit one; so it comes back as a plain value exactly if it still fits none, which is
so whenever no name stands twice.  Types nest, and their decoder runs on fuel: what it needs is the
depth of what is written, which goes down with every level of nesting.
-/

namespace LateBridge

namespace Json

variable {α : Type} {decode : Json → Option α} {encode : α → Json} {back : α → α}
variable {ms ms' : List (String × Json)} {name : String}

/-- **A decoder and an encoder round trip**: what the decoder gives is read back from how it is
written. -/
def RoundTrips (decode : Json → Option α) (encode : α → Json) : Prop :=
  ∀ j a, decode j = some a → decode (encode a) = some a

/-- **What comes back** for what a decoder gives once it is written: the same if no object repeated
a name. -/
structure ReadsBack (decode : Json → Option α) (encode : α → Json) (back : α → α) : Prop where
  reads : ∀ j a, decode j = some a → decode (encode a) = some (back a)
  keeps : ∀ j a, j.namesOnce → decode j = some a → back a = a

/-- A step of a decoder in the form in which it is written; under `Option.bind` each step would be
visited once for every step before it. -/
theorem step_eq_some_iff {β : Type} {x : Option α} {f : α → Option β} {b : β} :
    x >>= f = some b ↔ ∃ a, x = some a ∧ f a = some b :=
  Option.bind_eq_some_iff

/-! ## Plain values -/

theorem string?_roundTrips : RoundTrips string? .string := fun _ _ _ => rfl

theorem bool?_roundTrips : RoundTrips bool? .bool := fun _ _ _ => rfl

theorem natBelow?_nat {limit n : Nat} (h : n < limit) : natBelow? limit (nat n) = some n := by
  simp [natBelow?, nat, h]

theorem natBelow?_roundTrips (limit : Nat) : RoundTrips (natBelow? limit) nat := by
  intro j n h
  obtain ⟨i, hi, rfl⟩ : ∃ i : Int, (0 ≤ i ∧ i < limit) ∧ i.toNat = n := by
    unfold natBelow? at h
    split at h
    · split at h
      · next i hi => exact ⟨i, by simpa using hi, by simpa using h⟩
      · cases h
    · cases h
  exact natBelow?_nat (by omega)

/-! ## Arrays and nulls -/

/-- Parts that come back one by one come back as an array. -/
theorem list?_map {as : List α} (h : ∀ a ∈ as, decode (encode a) = some (back a)) :
    list? decode (.array (as.map encode)) = some (as.map back) := by
  induction as with
  | nil => rfl
  | cons a as ih =>
    have htail : (as.map encode).mapM decode = some (as.map back) := ih fun b hb => h b (.tail a hb)
    simp [list?, h a (.head as), htail]

/-- Each part of a decoded array was decoded from one of its items. -/
theorem exists_of_list? {j : Json} {as : List α} (h : list? decode j = some as) :
    ∃ items, j = .array items ∧ ∀ a ∈ as, ∃ v ∈ items, decode v = some a := by
  cases j with
  | array items =>
    refine ⟨items, rfl, ?_⟩
    have hitems : items.mapM decode = some as := h
    clear h
    induction items generalizing as with
    | nil => cases hitems; simp
    | cons v items ih =>
      simp only [List.mapM_cons, step_eq_some_iff, Option.pure_def, Option.some.injEq] at hitems
      obtain ⟨b, hb, bs, hbs, rfl⟩ := hitems
      rintro a (_ | ⟨_, ha⟩)
      · exact ⟨v, .head _, hb⟩
      · obtain ⟨w, hw, ha⟩ := ih hbs a ha
        exact ⟨w, .tail _ hw, ha⟩
  | _ => cases h

/-- What is written as something other than null may also be left null. -/
theorem nullable?_roundTrips (hc : RoundTrips decode encode) (hne : ∀ a, encode a ≠ .null) :
    RoundTrips (nullable? decode) fun a => orNull (a.map encode) := by
  have hsome : ∀ j, j ≠ .null → nullable? decode j = (decode j).map some := by
    intro j hj; cases j <;> first | rfl | exact absurd rfl hj
  intro j a? h
  cases a? with
  | none => rfl
  | some a =>
    have hj : j ≠ .null := by rintro rfl; cases h
    have ha : decode j = some a := by simpa [hsome j hj] using h
    simp [orNull, hsome _ (hne a), hc j a ha]

/-! ## Members -/

/-- A member is found in an object that names each of its members once. -/
theorem unique?_of_mem {v : Json} (hkeys : (ms.map Prod.fst).Nodup) (hv : (name, v) ∈ ms) :
    unique? ms name = some (some v) := by
  obtain ⟨before, after, rfl⟩ := List.append_of_mem hv
  rw [List.map_append, List.map_cons, List.nodup_middle, List.nodup_cons, ← List.map_append]
    at hkeys
  have hrest : (before ++ after).filter (·.1 == name) = [] := by
    refine List.filter_eq_nil_iff.mpr fun m hm heq => hkeys.1 ?_
    exact List.mem_map.mpr ⟨m, hm, by simpa using heq⟩
  rw [List.filter_append, List.append_eq_nil_iff] at hrest
  simp [unique?, hrest.1, hrest.2]

theorem mem_of_unique? {v : Json} (h : unique? ms name = some (some v)) : (name, v) ∈ ms := by
  unfold unique? at h
  split at h
  · cases h
  · next key w hfilter =>
    cases h
    obtain ⟨hmem, hkey⟩ := List.mem_filter.mp (hfilter ▸ List.mem_singleton_self (key, v))
    exact eq_of_beq hkey ▸ hmem
  · cases h

/-- The values of the members of a record are parts of it. -/
theorem namesOnce_of_fields? {names : List String} {j : Json} (hj : j.namesOnce)
    (h : fields? names j = some ms) : ∀ m ∈ ms, m.2.namesOnce := by
  unfold fields? at h
  split at h
  · cases h
    exact (namesOnce_object.mp hj).2
  · split at h
    · cases h
      exact fun m hm => namesOnce_array.mp hj m.2 (List.of_mem_zip hm).2
    · cases h
  · cases h

theorem exists_of_required? {a : α} (h : required? ms name decode = some a) :
    ∃ v, (name, v) ∈ ms ∧ decode v = some a := by
  unfold required? at h
  split at h
  · exact ⟨_, mem_of_unique? ‹_›, h⟩
  · cases h

/-- **A member that must be there** comes back from any object that writes it once. -/
theorem required?_back {a b : α} (h : required? ms name decode = some a)
    (hback : ∀ v, decode v = some a → decode (encode a) = some b)
    (hu : unique? ms' name = some (some (encode a))) : required? ms' name decode = some b := by
  obtain ⟨v, -, hv⟩ := exists_of_required? h
  rw [required?, hu]
  exact hback v hv

theorem RoundTrips.required (hc : RoundTrips decode encode) {a : α}
    (h : required? ms name decode = some a) (hu : unique? ms' name = some (some (encode a))) :
    required? ms' name decode = some a :=
  required?_back h (fun v => hc v a) hu

theorem ReadsBack.required (hc : ReadsBack decode encode back) {a : α}
    (h : required? ms name decode = some a) (hu : unique? ms' name = some (some (encode a))) :
    required? ms' name decode = some (back a) :=
  required?_back h (fun v => hc.reads v a) hu

theorem ReadsBack.keeps_required (hc : ReadsBack decode encode back) {a : α}
    (hms : ∀ m ∈ ms, m.2.namesOnce) (h : required? ms name decode = some a) : back a = a := by
  obtain ⟨v, hmem, hv⟩ := exists_of_required? h
  exact hc.keeps v a (hms _ hmem) hv

/-- **A member with a default** is read back from any object that writes it once, since the default
is written like any other value. -/
theorem RoundTrips.defaulted (hc : RoundTrips decode encode) {default a : α}
    (hd : decode (encode default) = some default)
    (h : defaulted? ms name decode default = some a)
    (hu : unique? ms' name = some (some (encode a))) :
    defaulted? ms' name decode default = some a := by
  rw [defaulted?, hu]
  unfold defaulted? at h
  split at h
  · exact hc _ a h
  · cases h; exact hd
  · cases h

theorem RoundTrips.optional (hc : RoundTrips decode encode) (hne : ∀ a, encode a ≠ .null)
    {a? : Option α} (h : optional? ms name decode = some a?)
    (hu : unique? ms' name = some (some (orNull (a?.map encode)))) :
    optional? ms' name decode = some a? :=
  (nullable?_roundTrips hc hne).defaulted rfl h hu

/-- The parts of an array member were decoded from the items of that member. -/
theorem exists_of_many? {as : List α} (h : many? ms name decode = some as) :
    ∀ a ∈ as, ∃ items, (name, .array items) ∈ ms ∧ ∃ v ∈ items, decode v = some a := by
  unfold many? defaulted? at h
  split at h
  · rename_i v hv
    obtain ⟨items, rfl, hitems⟩ := exists_of_list? h
    exact fun a ha => ⟨items, mem_of_unique? hv, hitems a ha⟩
  · cases h
    exact List.forall_mem_nil _
  · cases h

/-- **An array member** comes back from any object that writes it once, also by another decoder, if
each of its parts comes back by that one. -/
theorem many?_map {decode' : Json → Option α} {as : List α} (h : many? ms name decode = some as)
    (hback : ∀ v, ∀ a ∈ as, decode v = some a → decode' (encode a) = some (back a))
    (hu : unique? ms' name = some (some (.array (as.map encode)))) :
    many? ms' name decode' = some (as.map back) := by
  rw [many?, defaulted?, hu]
  refine list?_map fun a ha => ?_
  obtain ⟨_, -, v, -, hv⟩ := exists_of_many? h a ha
  exact hback v a ha hv

/-- Parts that do not change where no name is repeated. -/
theorem map_back_eq_self {as : List α} (hms : ∀ m ∈ ms, m.2.namesOnce)
    (h : many? ms name decode = some as)
    (hback : ∀ v, ∀ a ∈ as, v.namesOnce → decode v = some a → back a = a) : as.map back = as := by
  refine map_eq_self_iff.mpr fun a ha => ?_
  obtain ⟨items, hitems, v, hv, hdecode⟩ := exists_of_many? h a ha
  exact hback v a ha (namesOnce_array.mp (hms _ hitems) v hv) hdecode

theorem RoundTrips.many (hc : RoundTrips decode encode) {as : List α}
    (h : many? ms name decode = some as)
    (hu : unique? ms' name = some (some (.array (as.map encode)))) :
    many? ms' name decode = some as := by
  have hmap := many?_map h (fun v a _ hv => hc v a hv) hu
  rwa [List.map_id'] at hmap

theorem ReadsBack.many (hc : ReadsBack decode encode back) {as : List α}
    (h : many? ms name decode = some as)
    (hu : unique? ms' name = some (some (.array (as.map encode)))) :
    many? ms' name decode = some (as.map back) :=
  many?_map h (fun v a _ hv => hc.reads v a hv) hu

theorem ReadsBack.keeps_many (hc : ReadsBack decode encode back) {as : List α}
    (hms : ∀ m ∈ ms, m.2.namesOnce) (h : many? ms name decode = some as) : as.map back = as :=
  map_back_eq_self hms h fun v a _ => hc.keeps v a

theorem flag?_of_flag? {b : Bool} (h : flag? ms name = some b)
    (hu : unique? ms' name = some (some (.bool b))) : flag? ms' name = some b :=
  bool?_roundTrips.defaulted rfl h hu

end Json

open Json

/-! ## Words and places -/

theorem Kind.roundTrips : RoundTrips Kind.decode fun k => .string k.keyword := by
  rintro - (_ | _ | _ | _ | _) - <;> rfl

theorem Variance.roundTrips : RoundTrips Variance.decode fun v => .string v.word := by
  rintro - (_ | _ | _) - <;> rfl

theorem RefKind.roundTrips : RoundTrips RefKind.decode fun k => .string k.word := by
  rintro - (_ | _ | _ | _) - <;> rfl

theorem Location.roundTrips : RoundTrips Location.decode Location.encode := by
  intro j l h
  simp only [Location.decode, step_eq_some_iff, Option.pure_def, Option.some.injEq] at h ⊢
  obtain ⟨ms, -, file, hfile, line, hline, column, hcolumn, rfl⟩ := h
  have hkeys : ["file", "line", "column"].Nodup := by simp
  have hone : natBelow? (Nat.pow 2 32) (nat 1) = some 1 := natBelow?_nat (by decide)
  exact ⟨_, rfl, file, string?_roundTrips.required hfile (unique?_of_mem hkeys (by simp)),
    line, (natBelow?_roundTrips _).defaulted hone hline (unique?_of_mem hkeys (by simp)),
    column, (natBelow?_roundTrips _).defaulted hone hcolumn (unique?_of_mem hkeys (by simp)), rfl⟩

theorem Location.encode_ne_null (l : Location) : l.encode ≠ .null := nofun

/-! ## Attributes -/

namespace ArgumentDoc

/-- An object with one member has the form that its name tells, and no other. -/
@[simp] theorem tagged?_singleton {α : Type} (name other : String) (decode : Json → Option α)
    (v : Json) :
    tagged? name decode (.object [(other, v)]) = if other = name then decode v else none := by
  by_cases h : other = name <;> simp [tagged?, members?, required?, unique?, h]

/-- **The argument that comes back**: a plain value that fits a form has that form. -/
def settled : ArgumentDoc → ArgumentDoc
  | value json => (form? json).getD (value json)
  | a => a

theorem form?_ne_value {j json : Json} : form? j ≠ some (value json) := by
  simp [form?, Option.or_eq_some_iff]

theorem settled_of_form? {j : Json} {a : ArgumentDoc} (h : form? j = some a) : a.settled = a := by
  cases a with
  | value => exact absurd h form?_ne_value
  | _ => rfl

/-- **A plain value settles as it is** exactly if it fits no form. -/
theorem settled_value_eq_self_iff {json : Json} :
    (value json).settled = value json ↔ form? json = none := by
  rw [settled]
  cases hform : form? json with
  | none => simp
  | some b =>
    have hb : b ≠ value json := fun hb => form?_ne_value (hb ▸ hform)
    simp [hb]

/-- An argument that has a form is written in it. -/
theorem form?_encode {j : Json} {a : ArgumentDoc} (h : form? j = some a) :
    a.encode.readable ∧ form? a.encode = some a := by
  cases a with
  | typeOf text => simp [form?, encode, readable, membersReadable, string?]
  | char c => simp [form?, encode, readable, membersReadable, char?]
  | invalid flag => simp [form?, encode, readable, membersReadable, bool?]
  | value => exact absurd h form?_ne_value

theorem decode_eq_some_iff {j : Json} {a : ArgumentDoc} : decode j = some a ↔
    j.readable ∧ (form? j = some a ∨ form? j = none ∧ a = value j.merged) := by
  unfold decode
  split
  · cases form? j <;> simp [*, eq_comm]
  · simp [*]

/-- **An attribute argument comes back settled.** -/
theorem readsBack : ReadsBack decode encode settled where
  reads j a h := by
    obtain ⟨hreadable, hform | ⟨-, rfl⟩⟩ := decode_eq_some_iff.mp h
    · obtain ⟨hreadable', hform'⟩ := form?_encode hform
      rw [settled_of_form? hform]
      exact decode_eq_some_iff.mpr ⟨hreadable', .inl hform'⟩
    · refine decode_eq_some_iff.mpr ⟨readable_merged hreadable, ?_⟩
      rw [encode, settled, merged_merged]
      cases form? j.merged with
      | none => exact .inr ⟨rfl, rfl⟩
      | some b => exact .inl rfl
  keeps j a hj h := by
    obtain ⟨-, hform | ⟨hform, rfl⟩⟩ := decode_eq_some_iff.mp h
    · exact settled_of_form? hform
    · rw [merged_eq_self hj, settled, hform, Option.getD_none]

/-- **An attribute argument settles as it is** exactly if it has a form, or what is kept of it has
none. -/
theorem settled_eq_self_iff {j : Json} {a : ArgumentDoc} (h : decode j = some a) :
    a.settled = a ↔ (form? j = none → form? j.merged = none) := by
  obtain ⟨-, hform | ⟨hform, rfl⟩⟩ := decode_eq_some_iff.mp h
  · simp [settled_of_form? hform, hform]
  · simp [settled_value_eq_self_iff, hform]

end ArgumentDoc

/-- A named argument with its value settled. -/
def NamedArgumentDoc.settled (n : NamedArgumentDoc) : NamedArgumentDoc :=
  { n with value := n.value.settled }

theorem NamedArgumentDoc.settled_eq_self_iff (n : NamedArgumentDoc) :
    n.settled = n ↔ n.value.settled = n.value := by
  cases n
  simp [settled]

theorem NamedArgumentDoc.readsBack : ReadsBack NamedArgumentDoc.decode
    (fun n => .object [("name", n.name), ("value", n.value.encode)]) settled where
  reads j n h := by
    simp only [NamedArgumentDoc.decode, step_eq_some_iff, Option.pure_def, Option.some.injEq] at h ⊢
    obtain ⟨ms, -, name, hname, value, hvalue, rfl⟩ := h
    have hkeys : ["name", "value"].Nodup := by simp
    exact ⟨_, rfl, name, string?_roundTrips.required hname (unique?_of_mem hkeys (by simp)),
      _, ArgumentDoc.readsBack.required hvalue (unique?_of_mem hkeys (by simp)), rfl⟩
  keeps j n hj h := by
    simp only [NamedArgumentDoc.decode, step_eq_some_iff, Option.pure_def, Option.some.injEq] at h
    obtain ⟨ms, hms, name, -, value, hvalue, rfl⟩ := h
    rw [settled, ArgumentDoc.readsBack.keeps_required (namesOnce_of_fields? hj hms) hvalue]

/-- An attribute with its arguments settled. -/
def AttributeDoc.settled (a : AttributeDoc) : AttributeDoc :=
  { a with args := a.args.map .settled, named := a.named.map .settled }

/-- The arguments of an attribute, the named ones last. -/
def AttributeDoc.arguments (a : AttributeDoc) : List ArgumentDoc :=
  a.args ++ a.named.map NamedArgumentDoc.value

theorem AttributeDoc.settled_eq_self_iff (a : AttributeDoc) :
    a.settled = a ↔ ∀ x ∈ a.arguments, x.settled = x := by
  rw [arguments, List.forall_mem_append, List.forall_mem_map]
  cases a
  simp [settled, map_eq_self_iff, NamedArgumentDoc.settled_eq_self_iff]

theorem AttributeDoc.readsBack : ReadsBack AttributeDoc.decode AttributeDoc.encode settled where
  reads j a h := by
    simp only [AttributeDoc.decode, step_eq_some_iff, Option.pure_def, Option.some.injEq] at h ⊢
    obtain ⟨ms, -, name, hname, args, hargs, named, hnamed, rfl⟩ := h
    have hkeys : ["name", "args", "named"].Nodup := by simp
    exact ⟨_, rfl, name, string?_roundTrips.required hname (unique?_of_mem hkeys (by simp)),
      _, ArgumentDoc.readsBack.many hargs (unique?_of_mem hkeys (by simp)),
      _, NamedArgumentDoc.readsBack.many hnamed (unique?_of_mem hkeys (by simp)), rfl⟩
  keeps j a hj h := by
    simp only [AttributeDoc.decode, step_eq_some_iff, Option.pure_def, Option.some.injEq] at h
    obtain ⟨ms, hms, name, -, args, hargs, named, hnamed, rfl⟩ := h
    have hvalues := namesOnce_of_fields? hj hms
    rw [settled, ArgumentDoc.readsBack.keeps_many hvalues hargs,
      NamedArgumentDoc.readsBack.keeps_many hvalues hnamed]

/-- A type parameter with its attributes settled. -/
def TypeParamDoc.settled (p : TypeParamDoc) : TypeParamDoc :=
  { p with attributes := p.attributes.map .settled }

/-- The arguments of the attributes of a type parameter. -/
def TypeParamDoc.arguments (p : TypeParamDoc) : List ArgumentDoc :=
  p.attributes.flatMap AttributeDoc.arguments

theorem TypeParamDoc.settled_eq_self_iff (p : TypeParamDoc) :
    p.settled = p ↔ ∀ x ∈ p.arguments, x.settled = x := by
  rw [arguments, List.forall_mem_flatMap]
  cases p
  simp [settled, map_eq_self_iff, AttributeDoc.settled_eq_self_iff]

theorem TypeParamDoc.readsBack : ReadsBack TypeParamDoc.decode TypeParamDoc.encode settled where
  reads j p h := by
    simp only [TypeParamDoc.decode, step_eq_some_iff, Option.pure_def, Option.some.injEq] at h ⊢
    obtain ⟨ms, -, name, hname, variance, hvariance, constraints, hconstraints, attributes,
      hattributes, location, hlocation, rfl⟩ := h
    have hkeys : ["name", "variance", "constraints", "attributes", "location"].Nodup := by simp
    exact ⟨_, rfl, name, string?_roundTrips.required hname (unique?_of_mem hkeys (by simp)),
      variance, Variance.roundTrips.defaulted rfl hvariance (unique?_of_mem hkeys (by simp)),
      constraints, string?_roundTrips.many hconstraints (unique?_of_mem hkeys (by simp [strings])),
      _, AttributeDoc.readsBack.many hattributes (unique?_of_mem hkeys (by simp)),
      location, Location.roundTrips.optional Location.encode_ne_null hlocation
        (unique?_of_mem hkeys (by simp [encodeLocation])), rfl⟩
  keeps j p hj h := by
    simp only [TypeParamDoc.decode, step_eq_some_iff, Option.pure_def, Option.some.injEq] at h
    obtain ⟨ms, hms, name, -, variance, -, constraints, -, attributes, hattributes, location, -,
      rfl⟩ := h
    rw [settled, AttributeDoc.readsBack.keeps_many (namesOnce_of_fields? hj hms) hattributes]

/-! ## Parameters and methods -/

namespace ParamDoc

/-- **A default is the member as it is kept**: absent, null or another value that can be read. -/
theorem default_eq_some_iff {ms : List (String × Json)} {value? : Option Json} :
    defaulted? ms "default" (fun v => (any? v).map some) none = some value? ↔
      ∃ written?, unique? ms "default" = some written? ∧ (∀ v ∈ written?, v.readable) ∧
        value? = written?.map merged := by
  rw [defaulted?]
  cases unique? ms "default" with
  | none => simp
  | some written? =>
    cases written? with
    | none => simpa using eq_comm
    | some v =>
      by_cases hv : v.readable
      · simpa [any?, hv] using eq_comm
      · simp [any?, hv]

/-- The members of a written parameter: its default when there is one, and the others in any
case. -/
theorem exists_encode_eq (p : ParamDoc) : ∃ ms, p.encode = .object ms ∧
    (ms.map Prod.fst).Nodup ∧ unique? ms "default" = some p.default? ∧
    [("name", .string p.name), ("type", .string p.type), ("refKind", .string p.refKind.word),
      ("params", .bool p.isParams), ("location", encodeLocation p.location)] ⊆ ms := by
  cases hd : p.default? with
  | none =>
    refine ⟨_, by rw [encode, hd], ?_, ?_, ?_⟩
    · simp
    · simp [unique?]
    · simp
  | some v =>
    refine ⟨_, by rw [encode, hd], ?_, ?_, ?_⟩
    · simp
    · simp [unique?]
    · simp

theorem roundTrips : RoundTrips ParamDoc.decode ParamDoc.encode := by
  intro j p h
  obtain ⟨ms', hencode, hkeys, hdefault', hmem⟩ := p.exists_encode_eq
  simp only [List.cons_subset] at hmem
  obtain ⟨hname', htype', hrefKind', hparams', hlocation', -⟩ := hmem
  rw [hencode]
  simp only [ParamDoc.decode, step_eq_some_iff, Option.pure_def, Option.some.injEq] at h ⊢
  obtain ⟨ms, -, name, hname, type, htype, refKind, hrefKind, value?, hdefault, isParams, hparams,
    location, hlocation, rfl⟩ := h
  -- What the parameter keeps of its default is kept once more.
  obtain ⟨written?, -, hwritten, rfl⟩ := default_eq_some_iff.mp hdefault
  have hreadable : ∀ v ∈ written?.map merged, v.readable := by
    intro v hv
    obtain ⟨w, hw, rfl⟩ := Option.map_eq_some_iff.mp hv
    exact readable_merged (hwritten w hw)
  have hkept : written?.map merged = (written?.map merged).map merged := by
    rw [Option.map_map]
    exact congrArg (Option.map · written?) (funext fun v => v.merged_merged.symm)
  exact ⟨ms', rfl, name, string?_roundTrips.required hname (unique?_of_mem hkeys hname'),
    type, string?_roundTrips.required htype (unique?_of_mem hkeys htype'),
    refKind, RefKind.roundTrips.defaulted rfl hrefKind (unique?_of_mem hkeys hrefKind'),
    _, default_eq_some_iff.mpr ⟨_, hdefault', hreadable, hkept⟩,
    isParams, flag?_of_flag? hparams (unique?_of_mem hkeys hparams'),
    location, Location.roundTrips.optional Location.encode_ne_null hlocation
      (unique?_of_mem hkeys hlocation'), rfl⟩

/-- The default of a decoded parameter is what is kept of the member it was decoded from. -/
theorem exists_unique?_of_decode {ms : List (String × Json)} {p : ParamDoc}
    (h : ParamDoc.decode (.object ms) = some p) :
    ∃ written?, unique? ms "default" = some written? ∧ p.default? = written?.map merged := by
  simp only [ParamDoc.decode, step_eq_some_iff, Option.pure_def, Option.some.injEq] at h
  obtain ⟨_, ⟨⟩, _, -, _, -, _, -, value?, hdefault, _, -, _, -, rfl⟩ := h
  obtain ⟨written?, hwritten, -, hkept⟩ := default_eq_some_iff.mp hdefault
  exact ⟨written?, hwritten, hkept⟩

end ParamDoc

/-- A method with the attributes of it and of its type parameters settled. -/
def MethodDoc.settled (m : MethodDoc) : MethodDoc :=
  { m with typeParams := m.typeParams.map .settled, attributes := m.attributes.map .settled }

/-- The arguments of the attributes of a method and of its type parameters. -/
def MethodDoc.arguments (m : MethodDoc) : List ArgumentDoc :=
  m.typeParams.flatMap TypeParamDoc.arguments ++ m.attributes.flatMap AttributeDoc.arguments

theorem MethodDoc.settled_eq_self_iff (m : MethodDoc) :
    m.settled = m ↔ ∀ x ∈ m.arguments, x.settled = x := by
  rw [arguments, List.forall_mem_append, List.forall_mem_flatMap, List.forall_mem_flatMap]
  cases m
  simp [settled, map_eq_self_iff, TypeParamDoc.settled_eq_self_iff,
    AttributeDoc.settled_eq_self_iff]

theorem MethodDoc.readsBack : ReadsBack MethodDoc.decode MethodDoc.encode settled where
  reads j m h := by
    simp only [MethodDoc.decode, MethodFlags.decode, step_eq_some_iff, Option.pure_def,
      Option.some.injEq] at h ⊢
    obtain ⟨ms, -, name, hname, accessibility, haccessibility, flags, ⟨isStatic, hstatic, isAsync,
      hasync, isReadonly, hreadonly, isExtension, hextension, returnsByRef, hreturnsByRef,
      explicitInterface, hexplicit, partialDefinition, hpartial, rfl⟩, typeParams, htypeParams,
      params, hparams, returns, hreturns, attributes, hattributes, location, hlocation, rfl⟩ := h
    have hkeys : ["name", "accessibility", "static", "async", "readonly", "extension",
      "returnsByRef", "explicitInterface", "partialDefinition", "typeParameters", "parameters",
      "returns", "attributes", "location"].Nodup := by simp
    exact ⟨_, rfl, name, string?_roundTrips.required hname (unique?_of_mem hkeys (by simp)),
      accessibility, string?_roundTrips.defaulted rfl haccessibility
        (unique?_of_mem hkeys (by simp)),
      _, ⟨isStatic, flag?_of_flag? hstatic (unique?_of_mem hkeys (by simp)),
        isAsync, flag?_of_flag? hasync (unique?_of_mem hkeys (by simp)),
        isReadonly, flag?_of_flag? hreadonly (unique?_of_mem hkeys (by simp)),
        isExtension, flag?_of_flag? hextension (unique?_of_mem hkeys (by simp)),
        returnsByRef, flag?_of_flag? hreturnsByRef (unique?_of_mem hkeys (by simp)),
        explicitInterface, flag?_of_flag? hexplicit (unique?_of_mem hkeys (by simp)),
        partialDefinition, flag?_of_flag? hpartial (unique?_of_mem hkeys (by simp)), rfl⟩,
      _, TypeParamDoc.readsBack.many htypeParams (unique?_of_mem hkeys (by simp)),
      params, ParamDoc.roundTrips.many hparams (unique?_of_mem hkeys (by simp)),
      returns, string?_roundTrips.defaulted rfl hreturns (unique?_of_mem hkeys (by simp)),
      _, AttributeDoc.readsBack.many hattributes (unique?_of_mem hkeys (by simp)),
      location, Location.roundTrips.optional Location.encode_ne_null hlocation
        (unique?_of_mem hkeys (by simp [encodeLocation])), rfl⟩
  keeps j m hj h := by
    simp only [MethodDoc.decode, step_eq_some_iff, Option.pure_def, Option.some.injEq] at h
    obtain ⟨ms, hms, name, -, accessibility, -, flags, -, typeParams, htypeParams, params, -,
      returns, -, attributes, hattributes, location, -, rfl⟩ := h
    have hvalues := namesOnce_of_fields? hj hms
    rw [settled, TypeParamDoc.readsBack.keeps_many hvalues htypeParams,
      AttributeDoc.readsBack.keeps_many hvalues hattributes]

/-! ## Types -/

/-- What an array holds is less deep. -/
theorem Json.depth_lt_of_mem_array {v : Json} {items : List Json} (h : v ∈ items) :
    v.depth < (Json.array items).depth := by
  rw [depth, Nat.lt_succ_iff]
  induction items with
  | nil => cases h
  | cons w items ih =>
    rw [listDepth]
    cases h with
    | head => exact Nat.le_max_left ..
    | tail _ h => exact Nat.le_trans (ih h) (Nat.le_max_right ..)

/-- An object is as deep as the array of its values. -/
theorem Json.depth_object (ms : List (String × Json)) :
    (Json.object ms).depth = (Json.array (ms.map Prod.snd)).depth := by
  have hmembers : memberDepth ms = listDepth (ms.map Prod.snd) := by
    induction ms with
    | nil => rfl
    | cons m ms ih => rw [memberDepth, ih, List.map_cons, listDepth]
  rw [depth, depth, hmembers]

/-- What an object holds is less deep. -/
theorem Json.depth_lt_of_mem_object {name : String} {v : Json} {ms : List (String × Json)}
    (h : (name, v) ∈ ms) : v.depth < (Json.object ms).depth := by
  rw [depth_object]
  exact depth_lt_of_mem_array (List.mem_map.mpr ⟨_, h, rfl⟩)

/-- An item of an array that an object holds. -/
theorem Json.depth_lt_of_mem_items (name : String) {v : Json} {items : List Json}
    {ms : List (String × Json)} (hv : v ∈ items) (hitems : (name, .array items) ∈ ms) :
    v.depth < (Json.object ms).depth :=
  Nat.lt_trans (depth_lt_of_mem_array hv) (depth_lt_of_mem_object hitems)

namespace TypeDoc

mutual

/-- A type with the attributes settled that stand in it and in the types nested in it. -/
def settled : TypeDoc → TypeDoc
  | { kind, name, space, typeParams, base?, interfaces, isPartial, isStatic, methods, members,
      nested, location } =>
    { kind, name, space, typeParams := typeParams.map .settled, base?, interfaces, isPartial,
      isStatic, methods := methods.map .settled, members, nested := settledList nested, location }

/-- Several types with their attributes settled. -/
def settledList : List TypeDoc → List TypeDoc
  | [] => []
  | t :: ts => t.settled :: settledList ts

end

mutual

/-- The arguments of the attributes in a type and in the types nested in it. -/
def arguments : TypeDoc → List ArgumentDoc
  | { typeParams, methods, nested, .. } => typeParams.flatMap TypeParamDoc.arguments ++
      methods.flatMap MethodDoc.arguments ++ argumentsList nested

/-- The arguments in several types. -/
def argumentsList : List TypeDoc → List ArgumentDoc
  | [] => []
  | t :: ts => t.arguments ++ argumentsList ts

end

theorem argumentsList_eq_flatMap (ts : List TypeDoc) :
    argumentsList ts = ts.flatMap arguments := by
  induction ts with
  | nil => rfl
  | cons t ts ih => rw [argumentsList, ih, List.flatMap_cons]

theorem settledList_eq_map (ts : List TypeDoc) : settledList ts = ts.map settled := by
  induction ts with
  | nil => rfl
  | cons t ts ih => rw [settledList, ih, List.map_cons]

theorem encodeList_eq_map (ts : List TypeDoc) : encodeList ts = ts.map encode := by
  induction ts with
  | nil => rfl
  | cons t ts ih => rw [encodeList, ih, List.map_cons]

theorem depth_encode_pos (t : TypeDoc) : 0 < t.encode.depth := by
  cases t
  rw [encode, Json.depth]
  omega

/-- A nested type is written less deep than the type around it. -/
theorem depth_encode_lt {t n : TypeDoc} (h : n ∈ t.nested) :
    n.encode.depth < t.encode.depth := by
  cases t
  rw [encode, encodeList_eq_map]
  exact depth_lt_of_mem_items "nested" (List.mem_map_of_mem h) (by simp)

/-- **A type settles as it is** exactly if each of its arguments does. -/
theorem settled_eq_self_iff (t : TypeDoc) :
    t.settled = t ↔ ∀ x ∈ t.arguments, x.settled = x := by
  have hnested : ∀ n ∈ t.nested, (n.settled = n ↔ ∀ x ∈ n.arguments, x.settled = x) :=
    fun n hn => n.settled_eq_self_iff
  cases t
  rw [arguments, argumentsList_eq_flatMap, List.forall_mem_append, List.forall_mem_append,
    List.forall_mem_flatMap, List.forall_mem_flatMap, List.forall_mem_flatMap, settled,
    settledList_eq_map, ← forall₂_congr hnested]
  simp [map_eq_self_iff, TypeParamDoc.settled_eq_self_iff, MethodDoc.settled_eq_self_iff, and_assoc]
termination_by t.encode.depth
decreasing_by exact depth_encode_lt hn

/-- **A type comes back settled with the types nested in it**, on fuel for the depth it is written
in. -/
theorem decode_encode_of_le {fuel fuel' : Nat} {j : Json} {t : TypeDoc} (h : decode fuel j = some t)
    (hfuel : t.encode.depth ≤ fuel') : decode fuel' t.encode = some t.settled := by
  induction fuel generalizing fuel' j t with
  | zero => cases h
  | succ fuel ih =>
    obtain ⟨left, rfl⟩ : ∃ left, fuel' = left + 1 :=
      Nat.exists_eq_succ_of_ne_zero (by have := t.depth_encode_pos; omega)
    -- One unit of fuel is spent on this type, and the nested ones are less deep.
    have hleft : ∀ n ∈ t.nested, n.encode.depth ≤ left := fun n hn => by
      have := depth_encode_lt hn; omega
    simp only [TypeDoc.decode, step_eq_some_iff, Option.pure_def, Option.some.injEq] at h ⊢
    obtain ⟨ms, -, kind, hkind, name, hname, space, hspace, typeParams, htypeParams, base?, hbase,
      interfaces, hinterfaces, isPartial, hpartial, isStatic, hstatic, methods, hmethods, members,
      hmembers, nested, hnested, location, hlocation, rfl⟩ := h
    have hkeys : ["kind", "name", "namespace", "typeParameters", "base", "interfaces", "partial",
      "static", "methods", "members", "nested", "location"].Nodup := by simp
    rw [encode, encodeList_eq_map, settled, settledList_eq_map]
    exact ⟨_, rfl, kind, Kind.roundTrips.required hkind (unique?_of_mem hkeys (by simp)),
      name, string?_roundTrips.required hname (unique?_of_mem hkeys (by simp)),
      space, string?_roundTrips.optional nofun hspace (unique?_of_mem hkeys (by simp)),
      _, TypeParamDoc.readsBack.many htypeParams (unique?_of_mem hkeys (by simp)),
      base?, string?_roundTrips.optional nofun hbase (unique?_of_mem hkeys (by simp)),
      interfaces, string?_roundTrips.many hinterfaces (unique?_of_mem hkeys (by simp [strings])),
      isPartial, flag?_of_flag? hpartial (unique?_of_mem hkeys (by simp)),
      isStatic, flag?_of_flag? hstatic (unique?_of_mem hkeys (by simp)),
      _, MethodDoc.readsBack.many hmethods (unique?_of_mem hkeys (by simp)),
      members, string?_roundTrips.many hmembers (unique?_of_mem hkeys (by simp [strings])),
      _, many?_map hnested (fun v n hn hv => ih hv (hleft n hn)) (unique?_of_mem hkeys (by simp)),
      location, Location.roundTrips.optional Location.encode_ne_null hlocation
        (unique?_of_mem hkeys (by simp [encodeLocation])), rfl⟩

/-- **A type settles as it is** if no object repeats a name. -/
theorem settled_eq_self {fuel : Nat} {j : Json} {t : TypeDoc} (hj : j.namesOnce)
    (h : decode fuel j = some t) : t.settled = t := by
  induction fuel generalizing j t with
  | zero => cases h
  | succ fuel ih =>
    simp only [TypeDoc.decode, step_eq_some_iff, Option.pure_def, Option.some.injEq] at h
    obtain ⟨ms, hms, kind, -, name, -, space, -, typeParams, htypeParams, base?, -, interfaces, -,
      isPartial, -, isStatic, -, methods, hmethods, members, -, nested, hnested, location, -,
      rfl⟩ := h
    have hvalues := namesOnce_of_fields? hj hms
    have hinner : nested.map settled = nested :=
      map_back_eq_self hvalues hnested fun v n _ hv hn => ih hv hn
    rw [settled, settledList_eq_map, TypeParamDoc.readsBack.keeps_many hvalues htypeParams,
      MethodDoc.readsBack.keeps_many hvalues hmethods, hinner]

end TypeDoc

/-! ## Documents -/

namespace GraphDocument

/-- **A document with its attribute arguments settled**: a plain value that fits a form has that
form. -/
def settled (d : GraphDocument) : GraphDocument :=
  { d with types := d.types.map .settled }

theorem readsBack : ReadsBack decode encode settled where
  reads j d h := by
    simp only [decode, step_eq_some_iff, Option.pure_def, Option.some.injEq] at h ⊢
    obtain ⟨ms, -, coreLibrary, hcore, usings, husings, types, htypes, rfl⟩ := h
    have hkeys : ["coreLibrary", "usings", "types"].Nodup := by simp
    have hdepth : ∀ t ∈ types,
        t.encode.depth ≤ (encode { coreLibrary, usings, types }).depth := by
      intro t ht
      rw [encode, TypeDoc.encodeList_eq_map]
      exact Nat.le_of_lt (depth_lt_of_mem_items "types" (List.mem_map_of_mem ht) (by simp))
    exact ⟨_, rfl, coreLibrary, bool?_roundTrips.defaulted rfl hcore
        (unique?_of_mem hkeys (by simp)),
      usings, string?_roundTrips.many husings (unique?_of_mem hkeys (by simp [strings])),
      _, many?_map htypes (fun v t ht hv => TypeDoc.decode_encode_of_le hv (hdepth t ht))
        (unique?_of_mem hkeys (by simp [TypeDoc.encodeList_eq_map])), rfl⟩
  keeps j d hj h := by
    simp only [decode, step_eq_some_iff, Option.pure_def, Option.some.injEq] at h
    obtain ⟨ms, hms, coreLibrary, -, usings, -, types, htypes, rfl⟩ := h
    have htypes' : types.map TypeDoc.settled = types :=
      map_back_eq_self (namesOnce_of_fields? hj hms) htypes fun v t _ hv ht =>
        TypeDoc.settled_eq_self hv ht
    rw [settled, htypes']

/-- The arguments of all attributes of a document. -/
def arguments (d : GraphDocument) : List ArgumentDoc :=
  d.types.flatMap TypeDoc.arguments

/-- **A document settles as it is** exactly if no plain value in it fits a form. -/
theorem settled_eq_self_iff (d : GraphDocument) :
    d.settled = d ↔ ∀ json, .value json ∈ d.arguments → ArgumentDoc.form? json = none := by
  have htypes : d.settled = d ↔ ∀ x ∈ d.arguments, x.settled = x := by
    rw [arguments, List.forall_mem_flatMap]
    cases d
    simp [settled, map_eq_self_iff, TypeDoc.settled_eq_self_iff]
  rw [htypes]
  constructor
  · exact fun h json hmem => ArgumentDoc.settled_value_eq_self_iff.mp (h _ hmem)
  · intro h x hx
    cases x with
    | value json => exact ArgumentDoc.settled_value_eq_self_iff.mpr (h json hx)
    | _ => rfl

/-- **What comes back from the JSON of a graph document.**  A decoded document is given back, with
its attribute arguments settled, by decoding what it is written as.  It is the same one exactly if
no plain value among its arguments fits a form, which is so if no object repeats a name.  A
parameter comes back in any case, with its default, which is what is kept of the member of that name
— absent, null or another value — and the same member of both objects.  An attribute argument comes
back in the form it had exactly if it had a form from the start or has none when its repeated
members are gone. -/
theorem decode_encode {j : Json} {d : GraphDocument} (h : decode j = some d) :
    decode d.encode = some d.settled ∧
    (decode d.encode = some d ↔
      ∀ json, .value json ∈ d.arguments → ArgumentDoc.form? json = none) ∧
    (j.namesOnce → decode d.encode = some d) ∧
    (∀ ms p, ParamDoc.decode (.object ms) = some p →
      (∃ written?, unique? ms "default" = some written? ∧ p.default? = written?.map merged) ∧
      ParamDoc.decode p.encode = some p ∧
      ∃ ms', p.encode = .object ms' ∧ unique? ms' "default" = some p.default?) ∧
    ∀ k a, ArgumentDoc.decode k = some a → ArgumentDoc.decode a.encode = some a.settled ∧
      (ArgumentDoc.decode a.encode = some a ↔
        (ArgumentDoc.form? k = none → ArgumentDoc.form? k.merged = none)) := by
  have hreads := readsBack.reads j d h
  have hsame : decode d.encode = some d ↔ d.settled = d := by rw [hreads, Option.some.injEq]
  refine ⟨hreads, hsame.trans d.settled_eq_self_iff, fun hj => hsame.mpr (readsBack.keeps j d hj h),
    fun ms p hp => ?param, fun k a ha => ⟨ArgumentDoc.readsBack.reads k a ha, ?argument⟩⟩
  case param =>
    obtain ⟨ms', hencode, -, hdefault, -⟩ := p.exists_encode_eq
    exact ⟨ParamDoc.exists_unique?_of_decode hp, ParamDoc.roundTrips _ p hp, ms', hencode, hdefault⟩
  case argument =>
    rw [ArgumentDoc.readsBack.reads k a ha, Option.some.injEq]
    exact ArgumentDoc.settled_eq_self_iff ha

end GraphDocument

namespace Written

/-- An argument of each form, and an object that only the last form fits. -/
def args : List (Json × ArgumentDoc) :=
  [(.object [("typeof", "int"), ("note", .null)], .typeOf "int"),
    (.object [("char", "x")], .char 'x'), (.object [("invalid", false)], .invalid false),
    (.object [("char", "xy")], .value (.object [("char", "xy")]))]

/-- A parameter with the members of its default. -/
def param (default? : List (String × Json)) : List (String × Json) :=
  [("name", .string "p"), ("type", .string "object")] ++ default?

/-- A type with a type nested in it, and in that one a method with an attribute. -/
def document (args : List Json) : Json := .object [("types", .array [.object [("kind", "class"),
  ("name", "Shelf"), ("nested", .array [.object [("kind", "struct"), ("name", "Box"),
    ("methods", .array [.object [("name", "Put"), ("attributes", .array [.object
      [("name", "Marker"), ("args", .array args)]]), ("parameters", .array
        [.object (param []), .object (param [("default", .null)])])]])]])]])]

/-- A type reference that is given twice. -/
def twice : Json := .object [("typeof", "A"), ("typeof", "B")]

end Written

/-- A nested type with a method comes back; a null default and an absent one stay two, and each
argument keeps its form. -/
theorem GraphDocument.decode_encode_nested :
    (∃ d, GraphDocument.decode (Written.document (Written.args.map Prod.fst)) = some d ∧
      d.arguments = Written.args.map Prod.snd ∧ GraphDocument.decode d.encode = some d) ∧
    (∃ p, ParamDoc.decode (.object (Written.param [])) = some p ∧ p.default? = none ∧
      ParamDoc.decode p.encode = some p) ∧
    (∃ p, ParamDoc.decode (.object (Written.param [("default", .null)])) = some p ∧
      p.default? = some .null ∧ ParamDoc.decode p.encode = some p) ∧
    ∀ p ∈ Written.args, ArgumentDoc.decode p.1 = some p.2 ∧
      ArgumentDoc.decode p.2.encode = some p.2 := by
  obtain ⟨d, hd, harguments⟩ : ∃ d,
      GraphDocument.decode (Written.document (Written.args.map Prod.fst)) = some d ∧
      d.arguments = Written.args.map Prod.snd := ⟨_, rfl, rfl⟩
  obtain ⟨-, -, hdocument, hparam, hargument⟩ := GraphDocument.decode_encode hd
  have hdecode : ∀ p ∈ Written.args, ArgumentDoc.decode p.1 = some p.2 ∧
      (ArgumentDoc.form? p.1 = none → ArgumentDoc.form? p.1.merged = none) := by
    simp only [Written.args, List.forall_mem_cons]
    exact ⟨⟨rfl, nofun⟩, ⟨rfl, nofun⟩, ⟨rfl, nofun⟩, ⟨rfl, fun _ => rfl⟩, nofun⟩
  exact ⟨⟨d, hd, harguments, hdocument (by decide)⟩,
    ⟨_, rfl, rfl, (hparam (Written.param []) _ rfl).2.1⟩,
    ⟨_, rfl, rfl, (hparam (Written.param [("default", .null)]) _ rfl).2.1⟩,
    fun p hp => ⟨(hdecode p hp).1, (hargument p.1 p.2 (hdecode p hp).1).2.mpr (hdecode p hp).2⟩⟩

/-- **A type reference that is given twice** is kept as a plain value, and comes back as the second
of the two. -/
theorem GraphDocument.decode_encode_ne :
    ArgumentDoc.decode Written.twice = some (.value (.object [("typeof", "B")])) ∧
    ArgumentDoc.decode (ArgumentDoc.value (.object [("typeof", "B")])).encode =
      some (.typeOf "B") ∧
    ¬ ∀ j d, GraphDocument.decode j = some d → GraphDocument.decode d.encode = some d := by
  refine ⟨rfl, rfl, fun hall => ?_⟩
  obtain ⟨d, hd, hkept, hsettled⟩ : ∃ d, decode (Written.document [Written.twice]) = some d ∧
      d.arguments = [.value (.object [("typeof", "B")])] ∧
      d.settled.arguments = [.typeOf "B"] := ⟨_, rfl, rfl, rfl⟩
  have hsame : d.settled = d := Option.some.inj ((readsBack.reads _ d hd).symm.trans (hall _ d hd))
  rw [hsame, hkept] at hsettled
  cases hsettled

end LateBridge
