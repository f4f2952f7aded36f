import SemanticLayer.Proofs.Join.Content

/-!
# The preferred arcs between views

Well-formed identifiers make a join graph (`canBuild_of_wellFormed`).  It has an arc exactly where
one is offered, with a preferred relationship of those offered (`build_prefers`).  Views that are
kept from the user offer nothing (`Budgets.hidden_view_offers_no_arc`).
-/

namespace SemanticLayer

open Result Definition

variable {views : List View}

namespace JoinGraph

/-! ### Well-formed identifiers -/

structure IsWellFormed (i : Definition) : Prop where
  name : (i.get "name").isText = true
  kind : (i.get "type").isTextOf "primary" = true ∨ (i.get "type").isTextOf "foreign" = true ∨
    (i.get "type").isTextOf "join" = true ∧ i.has "reference" = true ∧ i.has "sql_on" = true ∧
      (Relationship.ofValue? (i.get "relationship")).isSome = true
  lists : ∀ key ∈ ["only_join", "allowed_fanouts"], ∀ v ∈ i.get? key, v.list?.isSome = true
  parts : ∀ v ∈ i.get? "identifiers", v.list?.isSome = true ∧
    ∀ part ∈ v.itemsD, part.map?.isSome = true ∧ part.entriesD.has "name" = true

instance (i : Definition) : Decidable (IsWellFormed i) :=
  decidable_of_iff (_ ∧ _ ∧ _ ∧ _)
    ⟨fun h => ⟨h.1, h.2.1, h.2.2.1, h.2.2.2⟩, fun h => ⟨h.name, h.kind, h.lists, h.parts⟩⟩

instance (views : List View) : Decidable (AreListed views) :=
  decidable_of_iff (∀ v ∈ views, (identifiers v).isOk = true) <| by
    have hok : ∀ v : View, (identifiers v).isOk = true ↔ ∃ ids, identifiers v = .ok ids := by
      intro v
      cases identifiers v <;> simp [Except.isOk, Except.toBool]
    simp only [AreListed, hok]

/-- No identifier of type join has the name of an identifier of another view. -/
def AreApart (ids : List (String × Definition)) : Prop :=
  ∀ e ∈ ids, ∀ e' ∈ ids, (e.2.get "type").isTextOf "join" = true → e.1 ≠ e'.1 →
    (e.2.get "name").plain ≠ (e'.2.get "name").plain

instance (ids : List (String × Definition)) : Decidable (AreApart ids) := by
  unfold AreApart
  infer_instance

namespace IsWellFormed

variable {i : Definition}

theorem includes_list {v : Value} (h : v.list?.isSome = true) (item : Value) :
    ∃ b, v.includes item = .ok b := by
  cases v with
  | list xs => exact ⟨_, rfl⟩
  | _ => cases h

variable (h : IsWellFormed i)
include h

theorem list_getD {key : String} (hkey : key ∈ ["only_join", "allowed_fanouts"]) :
    ((i.get? key).getD (.list [])).list?.isSome = true := by
  have hli := h.lists key hkey
  cases hget : i.get? key with
  | none => rfl
  | some v => exact hli v hget

theorem allows_isOk (view : String) : ∃ b, allows i view = .ok b := by
  unfold allows
  dsimp only
  split_ifs
  · exact includes_list (h.list_getD (by simp)) _
  · exact ⟨true, rfl⟩

theorem allowsFanout_isOk (view : String) : ∃ b, allowsFanout i view = .ok b :=
  includes_list (h.list_getD (by simp)) _

theorem type_of_byName (hby : IsByName i) :
    i.get "type" = .text "primary" ∨ i.get "type" = .text "foreign" := by
  rcases h.kind with hpri | hforeign | ⟨hj, -⟩
  · exact Or.inl (Value.isTextOf_iff.mp hpri)
  · exact Or.inr (Value.isTextOf_iff.mp hforeign)
  · cases hby.symm.trans hj

theorem isLegible : IsLegible i := by
  have htyped : ∀ {s}, (i.get "type").isTextOf s = true → i.has "type" = true := fun hs =>
    has_of_get? (Definition.get?_of_get (Value.isTextOf_iff.mp hs))
  rcases h.kind with hk | hk | ⟨hk, hrefd, hon, hrelationship⟩
  · refine ⟨htyped hk, fun hj => ?_⟩
    rw [Value.isTextOf_iff.mp hk] at hj
    cases hj
  · refine ⟨htyped hk, fun hj => ?_⟩
    rw [Value.isTextOf_iff.mp hk] at hj
    cases hj
  · obtain ⟨r, hr⟩ := Option.isSome_iff_exists.mp hrelationship
    obtain ⟨on, hon⟩ := exists_of_has hon
    exact ⟨htyped hk, fun _ => ⟨hrefd, _, r, on, hk, rfl, hr, hon⟩⟩

theorem isComposed : IsComposed i := by
  intro parts hpts
  obtain ⟨hli, hns⟩ := h.parts parts hpts
  cases parts with
  | list items =>
    refine ⟨items, rfl, fun part hpt => ?_⟩
    obtain ⟨hmap, hn⟩ := hns part hpt
    cases part with
    | map d => exact ⟨d, rfl, hn⟩
    | _ => cases hmap
  | _ => cases hli

theorem clause_isOk (view : String) : ∃ text, clause i view = .ok text := by
  obtain ⟨n, hn⟩ := exists_of_isText h.name
  unfold clause
  cases i.get? "sql" with
  | some sql => exact ⟨_, rfl⟩
  | none => exact ⟨_, bind_eq_ok.mpr ⟨_, need_eq_ok.mpr hn, rfl⟩⟩

theorem derive_isOk {j : Definition} (hj : IsWellFormed j) (hby : IsByName i) (hby' : IsByName j) :
    ∃ r, Relationship.derive (i.get "type") (j.get "type") = .ok r := by
  rcases h.type_of_byName hby with hi | hi <;> rcases hj.type_of_byName hby' with hj | hj <;>
    exact ⟨_, by rw [hi, hj]; rfl⟩

end IsWellFormed

theorem offer_isOk {x w : View} {i j : Definition} {name : Value} {ids : List Definition}
    (hne : w.name ≠ x.name) (hi : IsWellFormed i) (hj : IsWellFormed j) (hbyi : IsByName i)
    (hbyj : IsByName j) (hfi : views.find? (·.name == w.name) = some w)
    (hn : i.need "name" = .ok name) (hids : identifiers w = .ok ids)
    (hsnd : ids.findM? (fun k => do return (← k.need "name").same name) = .ok (some j)) :
    ∃ o, offer views x i w.name = .ok o := by
  obtain ⟨allowed, hallowed⟩ := hi.allows_isOk w.name
  obtain ⟨back, hback⟩ := hj.allows_isOk x.name
  obtain ⟨r, hr⟩ := hi.derive_isOk hj hbyi hbyj
  obtain ⟨a, ha⟩ := hi.clause_isOk x.name
  obtain ⟨b, hb⟩ := hj.clause_isOk w.name
  obtain ⟨data, hda, -⟩ := matchData_of_derive hr ha hb
  obtain ⟨fanout, hfan⟩ := hi.allowsFanout_isOk w.name
  unfold offer
  rw [if_neg (by simpa using hne), hfi]
  cases allowed with
  | false => exact ⟨none, bind_eq_ok.mpr ⟨false, hallowed, rfl⟩⟩
  | true =>
    refine ⟨if !back then none else if r.isFanout && !fanout then none else some (r, data), ?_⟩
    refine bind_eq_ok.mpr ⟨true, hallowed, ?_⟩
    refine bind_eq_ok.mpr ⟨name, hn, ?_⟩
    refine bind_eq_ok.mpr ⟨ids, hids, ?_⟩
    refine bind_eq_ok.mpr ⟨some j, hsnd, ?_⟩
    refine bind_eq_ok.mpr ⟨back, hback, ?_⟩
    cases back with
    | false => rfl
    | true =>
      refine bind_eq_ok.mpr ⟨(r, data), hda, bind_eq_ok.mpr ⟨fanout, hfan, ?_⟩⟩
      cases r.isFanout && !fanout <;> rfl

theorem canBuild_of_wellFormed (hvs : (views.map View.name).Nodup) (hnm : AreNamed views)
    (hap : AreApart (owned views)) (hls : AreListed views)
    (hall : ∀ e ∈ owned views, IsWellFormed e.2) : CanBuild views where
  listed := hls
  legible e he := (hall e he).isLegible
  named e he := by
    obtain ⟨n, hn⟩ := exists_of_isText (hall e he).name
    exact has_of_get? hn
  composed e he _ := (hall e he).isComposed
  matched := by
    rintro x hx i hi v ⟨j, hj, hby, hname⟩
    by_cases hself : v = x.name
    · exact ⟨none, by unfold offer; rw [if_pos (by simpa using hself)]; rfl⟩
    have hi' := hall _ hi
    have hj' := hall _ hj
    have hbyi : IsByName i := by
      rw [IsByName, ← Bool.not_eq_true]
      exact fun hjoin => hap _ hi _ hj hjoin (Ne.symm hself) hname.symm
    obtain ⟨w, hw, rfl, ids, hids, hjw⟩ := mem_owned.mp hj
    obtain ⟨n, hn⟩ := exists_of_isText hi'.name
    have hpl : n = (j.get "name").plain := by
      rw [hname, get_of_get? hn]
      rfl
    refine offer_isOk hself hi' hj' hbyi hby (find?_of_mem hvs hw)
      (need_eq_ok.mpr hn) hids ?_
    rw [findM?_name hvs hnm hw hids, hpl, find?_name_of_mem hvs hnm hw hids hjw]

/-! ### The theorem -/

/-- **The preferred arcs.**  Among the views that a user may see, let no two have one name, no two
identifiers of a view have one name, no identifier of type join have the name of one of another
view, and at most one of type join relate any two views.  If the identifiers are well-formed, the
join graph has an arc exactly where one is offered, with the relationship, weight and condition of
an offer to which no other is preferred. -/
theorem build_prefers {views : List View} (hviews : (views.map View.name).Nodup) (hnamed : AreNamed views)
    (hapart : AreApart (owned views)) (hsingle : AreSingle (owned views)) :
    (AreListed views → (∀ e ∈ owned views, IsWellFormed e.2) → ∃ g, build views = .ok g) ∧
      ∀ g, build views = .ok g → ∀ u ∈ views.map View.name, ∀ v,
        (g.graph.hasArc u v = true ↔ ∃ r on, Offers (owned views) u v r on) ∧
        ∀ a, g.graph.arc? u v = some a → ∃ r on, Offers (owned views) u v r on ∧
          Tells a.data r on ∧ ∀ r' on', Offers (owned views) u v r' on' →
            Relationship.all.idxOf r ≤ Relationship.all.idxOf r' := by
  have hmeets := build_meets hviews hnamed
  refine ⟨fun hlisted hall => hmeets.succeeds
    (canBuild_of_wellFormed hviews hnamed hapart hlisted hall), fun g hg u hu v => ⟨?_, ?_⟩⟩
  · rw [(hmeets.only g hg).2.arcs u v]
    exact ⟨And.right, fun h => ⟨hu, h⟩⟩
  · intro a ha
    obtain ⟨r, on, hoffer, htells, hleast⟩ := (hmeets.only g hg).2.best hsingle u v a ha
    refine ⟨r, on, hoffer, htells, fun r' on' hr' => ?_⟩
    have := hleast r' on' hr'
    rwa [← Relationship.idxOf_all, ← Relationship.idxOf_all, Nat.add_le_add_iff_right] at this

/-! ### Orders and budgets

Orders and customers have an identifier of one name, and orders also refer to customers by a
condition of their own.  Budgets refer to orders and are kept from everyone but the department of
finance. -/

namespace Budgets

def customer (sql : String) : Definition :=
  [("name", .text "customer"), ("type", .text "primary"), ("sql", .text sql)]

def buyer : Definition :=
  [("name", .text "buyer"), ("type", .text "join"), ("reference", .text "customers"),
   ("relationship", .text "many_to_one"),
   ("sql_on", .text "$\x7borders.customer\x7d=$\x7bcustomers.id\x7d")]

def planned : Definition :=
  [("name", .text "planned"), ("type", .text "join"), ("reference", .text "orders"),
   ("relationship", .text "one_to_one"),
   ("sql_on", .text "$\x7bbudgets.order\x7d=$\x7borders.id\x7d")]

def view (name : String) (identifiers : List Definition) (more : Definition) : Definition :=
  [("name", .text name), ("model_name", .text "m"),
   ("identifiers", .list (identifiers.map .map))] ++ more

def orders : Definition := view "orders" [customer "$\x7bcustomer\x7d", buyer] []

def customers : Definition := view "customers" [customer "$\x7bid\x7d"] []

def budgets : Definition :=
  view "budgets" [planned] [("required_access_grants", .texts ["finance"])]

def model : Definition :=
  [("name", .text "m"), ("connection", .text "wh"),
   ("access_grants", .list [.map [("name", .text "finance"),
     ("user_attribute", .text "department"), ("allowed_values", .texts ["finance"])]])]

def store (user : Option Definition) : Store :=
  { (default : Store) with
    models := [model], user := user, shelves := [⟨[], .null⟩],
    views := [⟨orders, some 0⟩, ⟨customers, some 0⟩, ⟨budgets, some 0⟩] }

def listed (d : Definition) : View :=
  { definition := d.set "sets" (.list []), shelf := 0, always := .null, asked := none,
    expanded := false }

def visible : List View := [listed orders, listed customers]

/-- What can be seen without restriction. -/
def all : List View := [listed orders, listed customers, listed budgets]

end Budgets

open Budgets in
theorem build_prefers_orders :
    (visible.map View.name).Nodup ∧ AreNamed visible ∧ AreApart (owned visible) ∧
      AreSingle (owned visible) ∧ AreListed visible ∧
      (∀ e ∈ owned visible, IsWellFormed e.2) ∧ ∃ g, build visible = .ok g ∧
        (g.graph.hasArc "orders" "customers" = true ↔
          ∃ r on, Offers (owned visible) "orders" "customers" r on) ∧
        ∀ a, g.graph.arc? "orders" "customers" = some a → ∃ r on,
          Offers (owned visible) "orders" "customers" r on ∧ Tells a.data r on ∧
          ∀ r' on', Offers (owned visible) "orders" "customers" r' on' →
            Relationship.all.idxOf r ≤ Relationship.all.idxOf r' := by
  have hviews : (visible.map View.name).Nodup := by decide +kernel
  have hnamed : AreNamed visible := by decide +kernel
  have hapart : AreApart (owned visible) := by decide +kernel
  have hsingle : AreSingle (owned visible) := by decide +kernel
  have hlisted : AreListed visible := by decide +kernel
  have hall : ∀ e ∈ owned visible, IsWellFormed e.2 := by decide +kernel
  obtain ⟨hok, hprefers⟩ := build_prefers hviews hnamed hapart hsingle
  obtain ⟨g, hg⟩ := hok hlisted hall
  exact ⟨hviews, hnamed, hapart, hsingle, hlisted, hall, g, hg,
    hprefers g hg "orders" (by decide +kernel) "customers"⟩

/-- Budgets refer to orders, and seen from orders that repeats no rows.  Who may not see budgets has
no arc to them. -/
theorem Budgets.hidden_view_offers_no_arc :
    (store none).listViews none = .ok all ∧
      (store (some [("department", .text "sales")])).listViews none = .ok visible ∧
      (all.map View.name).Nodup ∧ AreNamed all ∧ AreApart (owned all) ∧ AreSingle (owned all) ∧
      (∃ on, ("budgets", planned) ∈ owned all ∧ RefersTo planned "orders" .oneToOne on) ∧
      "orders" ∈ visible.map View.name ∧
      ∃ g, build visible = .ok g ∧ g.graph.hasArc "orders" "budgets" = false := by
  have hviews : (visible.map View.name).Nodup := by decide +kernel
  have hnamed : AreNamed visible := by decide +kernel
  have hmeets := build_meets hviews hnamed
  obtain ⟨g, hg⟩ := hmeets.succeeds (canBuild_of_wellFormed hviews hnamed (by decide +kernel)
    (by decide +kernel) (by decide +kernel))
  refine ⟨rfl, rfl, by decide +kernel, by decide +kernel, by decide +kernel, by decide +kernel,
    ⟨_, mem_owned.mpr ⟨listed budgets, by simp [all], rfl, _, rfl, by simp⟩, rfl, rfl, rfl, rfl⟩,
    by decide +kernel, g, hg, ?_⟩
  have hapart : ∀ e ∈ owned visible, e.1 ≠ "budgets" ∧ (e.2.get "reference").plain ≠ "budgets" := by
    decide +kernel
  rw [← Bool.not_eq_true, (hmeets.only g hg).2.arcs]
  rintro ⟨-, r, on, hwritten | hshared⟩
  · cases hwritten with
    | forwards hi hrefers => exact (hapart _ hi).2 hrefers.reference
    | backwards hi _ _ => exact (hapart _ hi).1 rfl
  · obtain ⟨-, first, second, -, hsecond, -⟩ := hshared
    exact (hapart _ hsecond).1 rfl

end JoinGraph

end SemanticLayer
