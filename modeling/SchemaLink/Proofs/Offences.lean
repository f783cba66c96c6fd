import Mathlib.Data.List.Lex
import SchemaLink.Proofs.Building

/-!
# Which offence is reported

A batch is refused for its first offence. To say which one that is, items are given places: the
position of a document in the batch, and a path of positions from the document down to a statement,
a type, or a member of a union. **The offence that is reported is the one at the earliest place**
(`Schema.ofDocuments_outcome`), and a batch is accepted exactly if the item at every place has the
names it needs.

Earlier means: modules come before submodules, documents of one sort in the order of the batch, and
inside a document paths are compared lexicographically, so that an item comes before what is inside
it. This is not the order of the places as such: a submodule at the front of the batch comes after
all modules.

The list of all offences is put together from those of parts, and so is the order of places: a place
in a list of items is the position of one of them followed by a place in it (`Joined`). `Leads` says
that a list begins with the offence at the earliest place, and it is kept by joining.
-/

namespace SchemaLink

/-- Modules are entered before submodules. -/
def Document.rank : Document → Nat
  | module _ => 0
  | submodule _ => 1

@[simp] theorem Document.rank_module (doc : ModuleDescription) :
    (Document.module doc).rank = 0 := rfl

@[simp] theorem Document.rank_submodule (doc : SubmoduleDescription) :
    (Document.submodule doc).rank = 1 := rfl

/-- The statements of a document. -/
def Document.body : Document → List Statement
  | module doc => doc.body
  | submodule doc => doc.body

/-- What a statement is known by: its name, the grouping that it uses, or its target. -/
def Statement.heading : Statement → String
  | block _ name _ _ | typed _ name _ _ | uses name | identity name _ _ => name
  | augment target _ _ => target

namespace Batch

/-! ### Items and places -/

/-- What stands at a place of a batch. A type is told to whom it belongs. -/
inductive Item where
  | document (doc : Document)
  | statement (st : Statement)
  | type (owner : String) (t : TypeDescription)

namespace Item

/-- The items directly inside an item, in order. -/
def parts : Item → List Item
  | document doc => doc.body.map statement
  | statement (.block _ _ _ body) | statement (.augment _ _ body) => body.map statement
  | statement (.typed kind name _ t) => [type (kind.kind.keyword ++ ":" ++ name) t]
  | statement (.uses _) | statement (.identity _ _ _) => []
  | type _ t => t.members.map (type (Kind.type.keyword ++ ":" ++ t.name))

/-- Follows a path of positions into an item. -/
def at? : Item → List Nat → Option Item
  | i, [] => some i
  | i, n :: path =>
    match i.parts[n]? with
    | some part => part.at? path
    | none => none

/-- An item of a batch has the names that it needs, and a submodule has its module. -/
def Complete (docs : List Document) : Item → Prop
  | document (.module doc) => doc.name ≠ "" ∧ doc.ownPrefix ≠ ""
  | document (.submodule doc) => ∃ owner, Document.module owner ∈ docs ∧ owner.name = doc.owner
  | statement st => st.heading ≠ ""
  | type _ t => t.name ≠ ""

/-- What is reported of an item that is not complete, in a document called `source`. -/
def fault (source : String) : Item → Fault
  | document (.module doc) => .invalidDocument doc.name "module requires a name and a prefix"
  | document (.submodule doc) => .unknownModule doc.owner doc.name
  | statement (.block kind _ _ _) =>
    .invalidDocument source (kind.kind.keyword ++ " without a name")
  | statement (.typed kind _ _ _) =>
    .invalidDocument source (kind.kind.keyword ++ " without a name")
  | statement (.uses _) => .invalidDocument source "uses without a grouping name"
  | statement (.augment _ _ _) => .invalidDocument source "augment without a target path"
  | statement (.identity _ _ _) => .invalidDocument source "identity without a name"
  | type owner _ => .invalidDocument source (owner ++ " has a type without a name")

/-- The item at the end of a path is not complete, and this is what is reported of it. -/
def Offends (docs : List Document) (source : String) (i : Item) (path : List Nat) (f : Fault) :
    Prop :=
  ∃ j, i.at? path = some j ∧ ¬ j.Complete docs ∧ f = j.fault source

end Item

/-- A place in a batch: the position of a document, and a path from there. -/
structure Place where
  document : Nat
  path : List Nat

namespace Place

/-- The document in which a place lies. -/
def document? (docs : List Document) (p : Place) : Option Document :=
  docs[p.document]?

/-- The item at a place. -/
def item? (docs : List Document) (p : Place) : Option Item :=
  (p.document? docs).bind fun doc ↦ (Item.document doc).at? p.path

/-- The name of the document in which a place lies. -/
def source (docs : List Document) (p : Place) : String :=
  ((p.document? docs).map Document.name).getD ""

/-- What places are compared by: the sort of the document, its position, and the path. -/
def key (docs : List Document) (p : Place) : List Nat :=
  ((p.document? docs).map Document.rank).getD 0 :: p.document :: p.path

/-- One place comes before another. -/
def Before (docs : List Document) (p q : Place) : Prop :=
  p.key docs < q.key docs

end Place

/-! ### Joining -/

variable {P : List Nat → Fault → Prop} {Ps : List (List Nat → Fault → Prop)}
  {L L' : List Fault} {docs : List Document} {source : String} {i : Item}

/-- Offences at the places of several items, one after the other. -/
def Joined (Ps : List (List Nat → Fault → Prop)) (path : List Nat) (f : Fault) : Prop :=
  ∃ n rest P, path = n :: rest ∧ Ps[n]? = some P ∧ P rest f

/-- A list is empty if there is no offence, and else begins with one that no other comes before. -/
structure Leads (P : List Nat → Fault → Prop) (L : List Fault) : Prop where
  none : L = [] → ∀ path f, ¬ P path f
  first : ∀ f rest, L = f :: rest → ∃ path, P path f ∧ ∀ path' < path, ∀ f', ¬ P path' f'

theorem joined_zero {rest : List Nat} {f : Fault} :
    Joined (P :: Ps) (0 :: rest) f ↔ P rest f := by
  simp [Joined]

theorem joined_succ {n : Nat} {rest : List Nat} {f : Fault} :
    Joined (P :: Ps) ((n + 1) :: rest) f ↔ Joined Ps (n :: rest) f := by
  simp [Joined]

theorem not_joined_nil {f : Fault} : ¬ Joined Ps [] f := by
  simp [Joined]

theorem joined_map {α : Type} {P : α → List Nat → Fault → Prop} {as : List α} {path : List Nat}
    {f : Fault} :
    Joined (as.map P) path f ↔ ∃ n rest a, path = n :: rest ∧ as[n]? = some a ∧ P a rest f := by
  simp only [Joined, List.getElem?_map, Option.map_eq_some_iff]
  grind

theorem leads_joined_nil : Leads (Joined []) [] where
  none := by
    rintro - path f ⟨n, rest, P, -, hP, -⟩
    simp at hP
  first := by simp

/-- **Step.** The offences of an item come before those of the items after it. -/
theorem Leads.joined_cons (hP : Leads P L) (hPs : Leads (Joined Ps) L') :
    Leads (Joined (P :: Ps)) (L ++ L') where
  none := by
    intro hnil path f hjoined
    obtain ⟨hL, hL'⟩ := List.append_eq_nil_iff.1 hnil
    match path with
    | [] => exact not_joined_nil hjoined
    | 0 :: rest => exact hP.none hL rest f (joined_zero.1 hjoined)
    | (n + 1) :: rest => exact hPs.none hL' (n :: rest) f (joined_succ.1 hjoined)
  first := by
    intro f rest hlist
    rcases L with - | ⟨f₀, L⟩
    · -- no offence in the item, so the first one of those after it
      obtain ⟨path, hpath, hbefore⟩ := hPs.first f rest hlist
      obtain ⟨n, path, -, rfl, -, -⟩ := id hpath
      refine ⟨(n + 1) :: path, joined_succ.2 hpath, fun path' hlt f' hjoined ↦ ?_⟩
      match path' with
      | [] => exact not_joined_nil hjoined
      | 0 :: rest' => exact hP.none rfl rest' f' (joined_zero.1 hjoined)
      | (n' + 1) :: rest' =>
        refine hbefore (n' :: rest') ?_ f' (joined_succ.1 hjoined)
        simpa [List.cons_lt_cons_iff] using hlt
    · obtain ⟨rfl, -⟩ := List.cons.inj hlist
      obtain ⟨path, hpath, hbefore⟩ := hP.first f₀ L rfl
      refine ⟨0 :: path, joined_zero.2 hpath, fun path' hlt f' hjoined ↦ ?_⟩
      match path' with
      | [] => exact not_joined_nil hjoined
      | 0 :: rest' =>
        refine hbefore rest' ?_ f' (joined_zero.1 hjoined)
        simpa [List.cons_lt_cons_iff] using hlt
      | (n' + 1) :: rest' => simp [List.cons_lt_cons_iff] at hlt

/-- **Run.** The offences of several items, one after the other. -/
theorem leads_flatMap {α : Type} {P : α → List Nat → Fault → Prop} {L : α → List Fault}
    {as : List α} (h : ∀ a ∈ as, Leads (P a) (L a)) :
    Leads (Joined (as.map P)) (as.flatMap L) := by
  induction as with
  | nil => exact leads_joined_nil
  | cons a as ih => exact (h a (by simp)).joined_cons (ih fun b hb ↦ h b (by simp [hb]))

/-! ### Items -/

namespace Item

theorem offends_nil {f : Fault} :
    i.Offends docs source [] f ↔ ¬ i.Complete docs ∧ f = i.fault source := by
  simp [Offends, at?]

theorem offends_cons {n : Nat} {path : List Nat} {f : Fault} :
    i.Offends docs source (n :: path) f ↔
      Joined (i.parts.map (Offends docs source)) (n :: path) f := by
  rcases hpart : i.parts[n]? with - | part
  · simp [Offends, at?, Joined, hpart]
  · simp [Offends, at?, Joined, hpart]

/-- An item comes before its parts. -/
theorem leads_offends {own : List Fault}
    (hown : i.Complete docs ∧ own = [] ∨ ¬ i.Complete docs ∧ own = [i.fault source])
    (hparts : Leads (Joined (i.parts.map (Offends docs source))) L) :
    Leads (i.Offends docs source) (own ++ L) := by
  rcases hown with ⟨hcomplete, rfl⟩ | ⟨hincomplete, rfl⟩
  · refine ⟨fun hnil path f hoffends ↦ ?_, fun f rest hlist ↦ ?_⟩
    · match path with
      | [] => exact (offends_nil.1 hoffends).1 hcomplete
      | n :: path => exact hparts.none hnil (n :: path) f (offends_cons.1 hoffends)
    · obtain ⟨path, hpath, hbefore⟩ := hparts.first f rest hlist
      obtain ⟨n, path, -, rfl, -, -⟩ := id hpath
      refine ⟨n :: path, offends_cons.2 hpath, fun path' hlt f' hoffends ↦ ?_⟩
      match path' with
      | [] => exact (offends_nil.1 hoffends).1 hcomplete
      | n' :: path' => exact hbefore (n' :: path') hlt f' (offends_cons.1 hoffends)
  · refine ⟨by simp, fun f rest hlist ↦ ?_⟩
    obtain ⟨rfl, -⟩ := List.cons.inj hlist
    exact ⟨[], offends_nil.2 ⟨hincomplete, rfl⟩, fun path' hlt ↦ absurd hlt (List.not_lt_nil _)⟩

end Item

/-- A name that is needed is complained about exactly if it is missing. -/
theorem nameOffence_cases {complaint name : String} (hcomplete : i.Complete docs ↔ name ≠ "")
    (hfault : i.fault source = .invalidDocument source complaint) :
    i.Complete docs ∧ nameOffence source complaint name = [] ∨
      ¬ i.Complete docs ∧ nameOffence source complaint name = [i.fault source] := by
  by_cases hname : name = "" <;> simp [nameOffence, hcomplete, hfault, hname]

mutual

theorem leads_type (docs : List Document) (source owner : String) (t : TypeDescription) :
    Leads ((Item.type owner t).Offends docs source) (t.offences source owner) := by
  match t with
  | ⟨name, _, _, _, _, _, members, _⟩ =>
    rw [TypeDescription.offences]
    exact Item.leads_offends (nameOffence_cases Iff.rfl rfl) (leads_types docs source _ members)

theorem leads_types (docs : List Document) (source owner : String) (ts : List TypeDescription) :
    Leads (Joined ((ts.map (Item.type owner)).map (Item.Offends docs source)))
      (TypeDescription.listOffences source owner ts) := by
  match ts with
  | [] => exact leads_joined_nil
  | t :: ts =>
    rw [TypeDescription.listOffences]
    exact (leads_type docs source owner t).joined_cons (leads_types docs source owner ts)

end

mutual

theorem leads_statement (docs : List Document) (source : String) (st : Statement) :
    Leads ((Item.statement st).Offends docs source) (st.offences source) := by
  match st with
  | .block kind name _ body =>
    rw [Statement.offences]
    exact Item.leads_offends (nameOffence_cases Iff.rfl rfl) (leads_statements docs source body)
  | .typed kind name _ type =>
    rw [Statement.offences]
    refine Item.leads_offends (nameOffence_cases Iff.rfl rfl) ?_
    have hjoined :=
      (leads_type docs source (kind.kind.keyword ++ ":" ++ name) type).joined_cons leads_joined_nil
    rwa [List.append_nil] at hjoined
  | .uses grouping =>
    rw [Statement.offences, ← List.append_nil (nameOffence _ _ _)]
    exact Item.leads_offends (nameOffence_cases Iff.rfl rfl) leads_joined_nil
  | .augment target _ body =>
    rw [Statement.offences]
    exact Item.leads_offends (nameOffence_cases Iff.rfl rfl) (leads_statements docs source body)
  | .identity name _ _ =>
    rw [Statement.offences, ← List.append_nil (nameOffence _ _ _)]
    exact Item.leads_offends (nameOffence_cases Iff.rfl rfl) leads_joined_nil

theorem leads_statements (docs : List Document) (source : String) (sts : List Statement) :
    Leads (Joined ((sts.map Item.statement).map (Item.Offends docs source)))
      (Statement.listOffences source sts) := by
  match sts with
  | [] => exact leads_joined_nil
  | st :: sts =>
    rw [Statement.listOffences]
    exact (leads_statement docs source st).joined_cons (leads_statements docs source sts)

end

/-! ### Documents -/

/-- The offences of a document in a batch. -/
def documentOffences (docs : List Document) : Document → List Fault
  | .module doc => doc.offences
  | .submodule doc => doc.offences ((modulesOf docs).map ModuleDescription.name)

theorem mem_modulesOf {doc : ModuleDescription} : doc ∈ modulesOf docs ↔ .module doc ∈ docs := by
  induction docs with
  | nil => simp [modulesOf]
  | cons d docs ih => cases d <;> simp [modulesOf, ih]

theorem leads_document (docs : List Document) (doc : Document) :
    Leads ((Item.document doc).Offends docs doc.name) (documentOffences docs doc) := by
  match doc with
  | .module doc =>
    refine Item.leads_offends ?_ (leads_statements docs doc.name doc.body)
    by_cases hnames : doc.name = "" ∨ doc.ownPrefix = ""
    · exact .inr ⟨by simpa [Item.Complete] using or_iff_not_imp_left.1 hnames, if_pos hnames⟩
    · exact .inl ⟨by simpa [Item.Complete] using hnames, if_neg hnames⟩
  | .submodule doc =>
    refine Item.leads_offends ?_ (leads_statements docs doc.name doc.body)
    have howner : (Item.document (.submodule doc)).Complete docs ↔
        doc.owner ∈ (modulesOf docs).map ModuleDescription.name := by
      simp [Item.Complete, mem_modulesOf]
    by_cases hmem : doc.owner ∈ (modulesOf docs).map ModuleDescription.name
    · exact .inl ⟨howner.2 hmem, if_pos hmem⟩
    · exact .inr ⟨fun h ↦ hmem (howner.1 h), if_neg hmem⟩

/-- The offences of the documents of one sort, each at its position in the batch. -/
def SortOffends (docs : List Document) (rank : Nat) : List Nat → Fault → Prop :=
  Joined (docs.map fun doc path f ↦
    doc.rank = rank ∧ (Item.document doc).Offends docs doc.name path f)

theorem leads_sort (docs : List Document) (rank : Nat) :
    Leads (SortOffends docs rank)
      (docs.flatMap fun doc ↦ if doc.rank = rank then documentOffences docs doc else []) := by
  refine leads_flatMap fun doc _ ↦ ?_
  by_cases hrank : doc.rank = rank
  · simpa [hrank] using leads_document docs doc
  · exact ⟨by simp [hrank], by simp [hrank]⟩

theorem flatMap_modulesOf (docs : List Document) (L : Document → List Fault) :
    (docs.flatMap fun doc ↦ if doc.rank = 0 then L doc else []) =
      (modulesOf docs).flatMap fun doc ↦ L (.module doc) := by
  induction docs with
  | nil => rfl
  | cons doc docs ih => cases doc <;> simp [modulesOf, ih]

theorem flatMap_submodulesOf (docs : List Document) (L : Document → List Fault) :
    (docs.flatMap fun doc ↦ if doc.rank = 1 then L doc else []) =
      (submodulesOf docs).flatMap fun doc ↦ L (.submodule doc) := by
  induction docs with
  | nil => rfl
  | cons doc docs ih => cases doc <;> simp [submodulesOf, ih]

/-- **The list of all offences begins with the one at the earliest place.** -/
theorem leads_offences (docs : List Document) :
    Leads (Joined [SortOffends docs 0, SortOffends docs 1]) (offences docs) := by
  have hsorts := (leads_sort docs 0).joined_cons ((leads_sort docs 1).joined_cons leads_joined_nil)
  rw [flatMap_modulesOf, flatMap_submodulesOf, List.append_nil] at hsorts
  exact hsorts

/-! ### Places -/

/-- The item at a place is not complete, and this is what is reported of it. -/
def Place.Offends (docs : List Document) (p : Place) (f : Fault) : Prop :=
  ∃ item, p.item? docs = some item ∧ ¬ item.Complete docs ∧ f = item.fault (p.source docs)

theorem Place.Offends.unique {p : Place} {f f' : Fault} (h : p.Offends docs f)
    (h' : p.Offends docs f') : f = f' := by
  obtain ⟨item, hitem, -, rfl⟩ := h
  obtain ⟨item', hitem', -, rfl⟩ := h'
  obtain rfl : item = item' := Option.some.inj (hitem.symm.trans hitem')
  rfl

theorem Place.offends_iff {p : Place} {f : Fault} :
    p.Offends docs f ↔ ∃ doc, p.document? docs = some doc ∧
      (Item.document doc).Offends docs doc.name p.path f := by
  rcases hdoc : p.document? docs with - | doc
  · simp [Place.Offends, Place.item?, hdoc]
  · simp [Place.Offends, Place.item?, Place.source, Item.Offends, hdoc]

theorem sortOffends_iff {rank : Nat} {path : List Nat} {f : Fault} :
    SortOffends docs rank path f ↔
      ∃ p : Place, p.key docs = rank :: path ∧ p.Offends docs f := by
  constructor
  · intro hjoined
    obtain ⟨n, rest, doc, rfl, hdoc, hrank, hoffends⟩ := joined_map.1 hjoined
    refine ⟨⟨n, rest⟩, ?_, Place.offends_iff.2 ⟨doc, hdoc, hoffends⟩⟩
    simp [Place.key, Place.document?, hdoc, hrank]
  · rintro ⟨p, hkey, hoffends⟩
    obtain ⟨doc, hdoc, hoffends⟩ := Place.offends_iff.1 hoffends
    obtain ⟨hrank, rfl⟩ : doc.rank = rank ∧ p.document :: p.path = path := by
      simpa [Place.key, hdoc] using hkey
    exact joined_map.2 ⟨p.document, p.path, doc, rfl, hdoc, hrank, hoffends⟩

/-- The offences of a batch are those at its places. -/
theorem joined_sorts_iff {key : List Nat} {f : Fault} :
    Joined [SortOffends docs 0, SortOffends docs 1] key f ↔
      ∃ p : Place, p.key docs = key ∧ p.Offends docs f := by
  constructor
  · rintro ⟨n, path, P, rfl, hP, hoffends⟩
    match n with
    | 0 => obtain rfl := Option.some.inj hP; exact sortOffends_iff.1 hoffends
    | 1 => obtain rfl := Option.some.inj hP; exact sortOffends_iff.1 hoffends
    | n + 2 => simp at hP
  · rintro ⟨p, rfl, hoffends⟩
    obtain ⟨doc, hdoc, -⟩ := Place.offends_iff.1 hoffends
    have hkey : p.key docs = doc.rank :: p.document :: p.path := by simp [Place.key, hdoc]
    have hsort := sortOffends_iff.2 ⟨p, hkey, hoffends⟩
    cases doc with
    | module => exact ⟨0, _, _, hkey, rfl, hsort⟩
    | submodule => exact ⟨1, _, _, hkey, rfl, hsort⟩

/-- No two places have the same key. -/
theorem Place.key_injective : (Place.key docs).Injective := by
  rintro ⟨n, path⟩ ⟨n', path'⟩ hkey
  simp_all [Place.key]

/-- There are no offences exactly if there is none at any place. -/
theorem offences_eq_nil_iff :
    offences docs = [] ↔ ∀ (p : Place) (f : Fault), ¬ p.Offends docs f := by
  have hleads := leads_offences docs
  constructor
  · exact fun hnil p f hoffends ↦ hleads.none hnil _ f (joined_sorts_iff.2 ⟨p, rfl, hoffends⟩)
  · intro hnone
    rcases hlist : offences docs with - | ⟨f, rest⟩
    · rfl
    · obtain ⟨key, hjoined, -⟩ := hleads.first f rest hlist
      obtain ⟨p, -, hoffends⟩ := joined_sorts_iff.1 hjoined
      exact absurd hoffends (hnone p f)

/-- The first of the offences is the one at the earliest place. -/
theorem offences_eq_cons_iff {f : Fault} :
    (∃ rest, offences docs = f :: rest) ↔
      ∃ p : Place, p.Offends docs f ∧
        ∀ p' : Place, p'.Before docs p → ∀ f', ¬ p'.Offends docs f' := by
  have hleads := leads_offences docs
  constructor
  · rintro ⟨rest, hlist⟩
    obtain ⟨key, hjoined, hbefore⟩ := hleads.first f rest hlist
    obtain ⟨p, rfl, hoffends⟩ := joined_sorts_iff.1 hjoined
    exact ⟨p, hoffends, fun p' hlt f' h ↦ hbefore _ hlt f' (joined_sorts_iff.2 ⟨p', rfl, h⟩)⟩
  · rintro ⟨p, hoffends, hbefore⟩
    rcases hlist : offences docs with - | ⟨f₀, rest⟩
    · exact absurd (joined_sorts_iff.2 ⟨p, rfl, hoffends⟩) (hleads.none hlist _ f)
    · obtain ⟨key, hjoined, hfirst⟩ := hleads.first f₀ rest hlist
      obtain ⟨p₀, rfl, hoffends₀⟩ := joined_sorts_iff.1 hjoined
      -- neither place is before the other, so they are one place, and it has one offence
      have hkey : p₀.key docs = p.key docs := by
        rcases lt_trichotomy (p₀.key docs) (p.key docs) with hlt | heq | hgt
        · exact absurd hoffends₀ (hbefore p₀ hlt f₀)
        · exact heq
        · exact absurd (joined_sorts_iff.2 ⟨p, rfl, hoffends⟩) (hfirst _ hgt f)
      obtain rfl := Place.key_injective hkey
      exact ⟨rest, by rw [hoffends₀.unique hoffends]⟩

end Batch

namespace Schema

/-- **A batch is accepted exactly if the item at every place has the names it needs, and else the
offence at the earliest place is reported.** -/
theorem ofDocuments_outcome (docs : List Document) :
    ((∃ s, ofDocuments docs = .ok s) ↔
      ∀ (place : Batch.Place) (item : Batch.Item), place.item? docs = some item →
        item.Complete docs) ∧
    ∀ fault, ofDocuments docs = .error fault ↔
      ∃ (place : Batch.Place) (item : Batch.Item), place.item? docs = some item ∧
        ¬ item.Complete docs ∧ fault = item.fault (place.source docs) ∧
        ∀ (place' : Batch.Place) (item' : Batch.Item), place'.Before docs place →
          place'.item? docs = some item' → item'.Complete docs := by
  refine ⟨?_, fun fault ↦ ?_⟩
  · rw [exists_ofDocuments_eq_ok_iff, Batch.offences_eq_nil_iff]
    constructor
    · intro hnone place item hitem
      by_contra hincomplete
      exact hnone place _ ⟨item, hitem, hincomplete, rfl⟩
    · rintro hall place _ ⟨item, hitem, hincomplete, -⟩
      exact hincomplete (hall place item hitem)
  · rw [ofDocuments_eq_error_iff, Batch.offences_eq_cons_iff]
    constructor
    · rintro ⟨place, ⟨item, hitem, hincomplete, rfl⟩, hbefore⟩
      refine ⟨place, item, hitem, hincomplete, rfl, fun place' item' hlt hitem' ↦ ?_⟩
      by_contra hincomplete'
      exact hbefore place' hlt _ ⟨item', hitem', hincomplete', rfl⟩
    · rintro ⟨place, item, hitem, hincomplete, rfl, hbefore⟩
      refine ⟨place, ⟨item, hitem, hincomplete, rfl⟩, ?_⟩
      rintro place' hlt _ ⟨item', hitem', hincomplete', -⟩
      exact hincomplete' (hbefore place' item' hlt hitem')

-- The submodule has no module, but a module after it has an offence too.
example :
    ofDocuments
      [.submodule { name := "s", owner := "absent" },
        .module { name := "m", ownPrefix := "m", space := "", body := [.uses "g", .uses ""] }] =
      .error (.invalidDocument "m" "uses without a grouping name") := by
  rfl

end Schema

end SchemaLink
