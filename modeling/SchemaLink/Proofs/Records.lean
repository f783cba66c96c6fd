import SchemaLink.Document.OfJson

/-!
# The values that a record gives

A record of a document is an object or an array. What it means does not depend on how it is written:
`Form.Gives` says that a record, of either form, gives certain values to its fields. An object has
its members in any order and may have further ones, and an array may end early. Then **the slots of
the record are these values** (`Form.Gives.slots`), and taking the kind of a statement away leaves a
record of the other fields (`Form.Gives.untag`).

Further members must be foreign: they have no key that is used anywhere in documents
(`Document.keys`). A member `module` would turn some submodules into modules.
-/

namespace SchemaLink

/-! ### Fields -/

/-- The fields of an import, in declared order. -/
def Import.fields : List String :=
  ["module", "prefix"]

namespace Statement

/-- The fields of a statement besides its kind, in declared order. -/
def fields : StatementKind → List String
  | .block _ => ["name", "description", "body"]
  | .typed _ => ["name", "description", "type"]
  | .uses => ["name"]
  | .augment => ["target", "description", "body"]
  | .identity => ["name", "description", "bases"]

theorem tag_notMem_fields (kind : StatementKind) : tag ∉ fields kind := by
  cases kind <;> simp [tag, fields]

theorem nodup_fields (kind : StatementKind) : (fields kind).Nodup := by
  cases kind <;> simp [fields]

end Statement

/-- All keys that are used in documents. -/
def Document.keys : List String :=
  Statement.tag :: (ModuleDescription.fields ++ SubmoduleDescription.fields ++ Import.fields
    ++ StatementKind.numbered.flatMap Statement.fields ++ TypeDescription.fields)

theorem Statement.fields_subset_keys (kind : StatementKind) : fields kind ⊆ Document.keys := by
  cases kind <;> simp only [fields] <;> decide

/-! ### Records -/

namespace Form

variable {α β : Type}

/-- The members of an object that gives the fields that have a value. -/
def present (fields : List String) (values : List (Option α)) : List (String × α) :=
  (fields.zip values).filterMap fun e ↦ e.2.map (e.1, ·)

/-- A record gives values to its fields. The members of an object may stand in any order and among
foreign ones; an array may end before fields without a value. -/
def Gives (fields : List String) (values : List (Option α)) : Form α → Prop
  | named members => ∃ further, members.Perm (present fields values ++ further) ∧
      ∀ e ∈ further, e.1 ∉ Document.keys
  | positional items => ∃ n, values = items.map some ++ List.replicate n none

/-- The same record over other values. -/
def map (f : α → β) : Form α → Form β
  | named members => named (members.map fun e ↦ (e.1, f e.2))
  | positional items => positional (items.map f)

variable {fields : List String} {values : List (Option α)} {field tag : String} {form : Form α}

@[simp] theorem present_nil : present [] ([] : List (Option α)) = [] :=
  rfl

@[simp] theorem present_cons (field : String) (fields : List String) (v : Option α)
    (values : List (Option α)) :
    present (field :: fields) (v :: values) =
      (v.map (field, ·)).toList ++ present fields values := by
  cases v <;> simp [present]

theorem fst_mem_of_mem_present {e : String × α} (h : e ∈ present fields values) :
    e.1 ∈ fields := by
  obtain ⟨⟨field, v⟩, hzip, hv⟩ := List.mem_filterMap.1 h
  obtain ⟨a, -, rfl⟩ := Option.map_eq_some_iff.1 hv
  exact (List.of_mem_zip hzip).1

theorem map_present (f : α → β) (fields : List String) (values : List (Option α)) :
    (present fields values).map (fun e ↦ (e.1, f e.2)) = present fields (values.map (·.map f)) := by
  induction fields generalizing values with
  | nil => simp [present]
  | cons field fields ih =>
    cases values with
    | nil => simp [present]
    | cons v values => cases v <;> simp [present_cons, ih]

theorem valuesOf_append (before after : List (String × α)) (field : String) :
    valuesOf (before ++ after) field = valuesOf before field ++ valuesOf after field := by
  simp [valuesOf]

theorem valuesOf_eq_nil {members : List (String × α)} (h : ∀ e ∈ members, e.1 ≠ field) :
    valuesOf members field = [] := by
  simpa [valuesOf] using h

theorem valuesOf_cons_self (a : α) (members : List (String × α)) (field : String) :
    valuesOf ((field, a) :: members) field = a :: valuesOf members field := by
  simp [valuesOf]

theorem valuesOf_toList (v : Option α) (field : String) :
    valuesOf (v.map (field, ·)).toList field = v.toList := by
  cases v <;> simp [valuesOf]

theorem valuesOf_perm {members members' : List (String × α)} (h : members.Perm members')
    (field : String) : (valuesOf members field).Perm (valuesOf members' field) :=
  (h.filter _).map _

/-- Whether there is one value does not depend on an order. -/
theorem atMostOne_perm {as bs : List α} (h : as.Perm bs) : atMostOne as = atMostOne bs := by
  match as, bs, h.length_eq with
  | [], [], _ => rfl
  | [a], [b], _ => rw [List.singleton_perm_singleton.1 h]
  | _ :: _ :: _, _ :: _ :: _, _ => rfl

theorem atMostOne_of_slots_cons {members : List (String × α)} {v : Option α}
    (h : (named members).slots (field :: fields) = some (v :: values)) :
    atMostOne (valuesOf members field) = some v := by
  simp only [slots, List.mapM_cons] at h
  obtain ⟨first, hfirst, hrest⟩ := Option.bind_eq_some_iff.1 h
  obtain ⟨others, -, hcons⟩ := Option.bind_eq_some_iff.1 hrest
  obtain ⟨rfl, -⟩ := List.cons.inj (Option.some.inj hcons)
  exact hfirst

theorem getElem?_of_slots_positional {items : List α} {i : Nat}
    (h : (positional items).slots fields = some values) (hi : i < fields.length) :
    values[i]? = some items[i]? := by
  obtain ⟨-, rfl⟩ : items.length ≤ fields.length ∧
      items.map some ++ List.replicate (fields.length - items.length) none = values := by
    simpa [slots] using h
  rw [List.getElem?_append, List.getElem?_map, List.getElem?_replicate, List.length_map]
  grind

/-- Members of other fields may come before. -/
theorem mapM_valuesOf_present (hfields : fields.Nodup) (hlength : values.length = fields.length)
    (before : List (String × α)) (hbefore : ∀ e ∈ before, e.1 ∉ fields) :
    (fields.mapM fun f ↦ atMostOne (valuesOf (before ++ present fields values) f)) =
      some values := by
  induction fields generalizing values before with
  | nil =>
    obtain rfl : values = [] := List.length_eq_zero_iff.1 hlength
    rfl
  | cons field fields ih =>
    obtain ⟨v, values, rfl⟩ := List.exists_cons_of_length_eq_add_one hlength
    obtain ⟨hfield, hfields⟩ := List.nodup_cons.1 hfields
    have hrestNone : valuesOf (present fields values) field = [] :=
      valuesOf_eq_nil fun e he heq ↦ hfield (heq ▸ fst_mem_of_mem_present he)
    have hfirst :
        valuesOf (before ++ present (field :: fields) (v :: values)) field = v.toList := by
      rw [present_cons, valuesOf_append, valuesOf_append, valuesOf_toList, hrestNone,
        valuesOf_eq_nil fun e he heq ↦ hbefore e he (by simp [heq])]
      simp
    -- the member of the first field, if it is there, is one more that comes before the rest
    have hrest := ih hfields (by simpa using hlength) (before ++ (v.map (field, ·)).toList) <| by
      intro e he
      rcases List.mem_append.1 he with he | he
      · exact fun hmem ↦ hbefore e he (List.mem_cons_of_mem _ hmem)
      · obtain ⟨a, -, rfl⟩ := Option.map_eq_some_iff.1 (Option.mem_toList.1 he)
        exact hfield
    rw [List.append_assoc, ← present_cons] at hrest
    rw [List.mapM_cons, hfirst, hrest]
    cases v <;> rfl

namespace Gives

/-- **The slots of a record are the values that it gives.** -/
theorem slots (h : form.Gives fields values) (hfields : fields.Nodup)
    (hlength : values.length = fields.length) (hkeys : fields ⊆ Document.keys) :
    form.slots fields = some values := by
  cases form with
  | named members =>
    obtain ⟨further, hmembers, hforeign⟩ := h
    have hperm := hmembers.trans List.perm_append_comm
    simp only [Form.slots, atMostOne_perm (valuesOf_perm hperm _)]
    exact mapM_valuesOf_present hfields hlength further fun e he hmem ↦
      hforeign e he (hkeys hmem)
  | positional items =>
    obtain ⟨n, rfl⟩ := h
    obtain rfl : n = fields.length - items.length := by simp at hlength; omega
    exact if_pos (by simp at hlength; omega)

/-- A record gives the images of its values if it is written over the images. -/
theorem map (h : form.Gives fields values) (f : α → β) :
    (form.map f).Gives fields (values.map (·.map f)) := by
  cases form with
  | named members =>
    obtain ⟨further, hmembers, hforeign⟩ := h
    refine ⟨further.map fun e ↦ (e.1, f e.2), ?_, ?_⟩
    · rw [← map_present, ← List.map_append]
      exact hmembers.map _
    · intro e he
      obtain ⟨e, hmem, rfl⟩ := List.mem_map.1 he
      exact hforeign e hmem
  | positional items =>
    obtain ⟨n, rfl⟩ := h
    exact ⟨n, by simp⟩

/-- The value of the first field is found under its key, and the record of the others is what
remains. -/
theorem untag {a : α} (h : form.Gives (tag :: fields) (some a :: values)) (htag : tag ∉ fields)
    (hkey : tag ∈ Document.keys) :
    ∃ rest, form.untag tag = some (a, rest) ∧ rest.Gives fields values := by
  cases form with
  | named members =>
    obtain ⟨further, hmembers, hforeign⟩ := h
    simp only [present_cons, Option.map_some, Option.toList_some, List.cons_append,
      List.nil_append] at hmembers
    have hothers : ∀ e ∈ present fields values ++ further, e.1 ≠ tag := by
      rintro e he rfl
      rcases List.mem_append.1 he with he | he
      · exact htag (fst_mem_of_mem_present he)
      · exact hforeign e he hkey
    have hvalues : valuesOf members tag = [a] := by
      refine List.perm_singleton.1 ((valuesOf_perm hmembers tag).trans ?_)
      rw [valuesOf_cons_self, valuesOf_eq_nil hothers]
    have hrest : ((tag, a) :: (present fields values ++ further)).filter (·.1 ≠ tag) =
        present fields values ++ further := by
      rw [List.filter_cons_of_neg (by simp),
        List.filter_eq_self.2 fun e he ↦ by simpa using hothers e he]
    exact ⟨named (members.filter (·.1 ≠ tag)), by simp only [Form.untag, hvalues], further,
      hrest ▸ hmembers.filter (·.1 ≠ tag), hforeign⟩
  | positional items =>
    obtain ⟨n, hitems⟩ := h
    cases items with
    | nil => cases n <;> simp [List.replicate_succ] at hitems
    | cons b items =>
      simp only [List.map_cons, List.cons_append, List.cons.injEq, Option.some.injEq] at hitems
      obtain ⟨rfl, rfl⟩ := hitems
      exact ⟨positional items, rfl, n, rfl⟩

end Gives

end Form

end SchemaLink
