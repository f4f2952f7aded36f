import SemanticLayer.Proofs.Project.Lookup
import SemanticLayer.Proofs.Project.Order

/-!
# The names of fields

The names of a dimension group are the aliases it is listed with, unless it has timeframes and
intervals in each other's place, or leaves its intervals to the default
(`Field.groupNames_agree_iff`). Where names are free of dots and timeframes in small letters, the
lookup by the id of a field finds it (`Store.getField_exact`).
-/

namespace SemanticLayer

open Result List Definition Project SemanticLayer.Field

namespace Field

variable {f g : Field} {d e : Definition} {v u : View} {frames intervals : Option (List String)}

/-! ### Names of groups -/

theorem exists_make (h : make d v = .ok f)
    (he : ∀ k ∈ ["name", "field_type", "type"], e.get? k = f.definition.get? k) (u : View) :
    ∃ g, make e u = .ok g ∧
      g.aliasName = { f with chosen := some (e.get "dimension_group") }.aliasName := by
  have hget : ∀ k ∈ ["name", "field_type", "type"], e.get k = f.property k := fun k hk => by
    rw [property, Definition.get, he k hk, Definition.get]
  have hrd : IsReadable e := by
    obtain ⟨d', hd', rfl⟩ := make_eq_ok h
    have hcpt := isComplete_normalize hd'
    rw [isComplete, Bool.and_eq_true] at hcpt
    refine ⟨?_, ?_⟩
    · rw [he _ (by decide)]
      obtain ⟨_, -, hs⟩ | ⟨-, hs⟩ := name_of_make h
      · exact .inr ⟨_, hs⟩
      · exact .inl hs
    · rw [has_eq_isSome, he _ (by decide), ← has_eq_isSome]
      exact hcpt.2
  obtain ⟨d', hd'⟩ := hrd.normalize_eq_ok
  have hg : make e u = .ok { view := u, definition := d' } := by rw [make, hd']; rfl
  have hn : (d'.get "name").plain = f.name := by
    rw [name, property, Definition.get, Definition.get]
    obtain ⟨s, hs, hs'⟩ | ⟨hs, hs'⟩ := name_of_make hg
    · rw [he _ (by decide)] at hs
      obtain ⟨t, -, ht⟩ | ⟨-, ht⟩ := name_of_make h
      · cases ht.symm.trans hs
        rw [hs', hs, Text.lower_lower]
      · cases ht.symm.trans hs
    · rw [hs', ← he _ (by decide), hs]
  refine ⟨_, hg, ?_⟩
  have hty := get_of_make hg (k := "type") (by decide)
  have hkind := get_of_make hg (k := "field_type") (by decide)
  have hgr := get_of_make hg (k := "dimension_group") (by decide)
  rw [hget _ (by decide)] at hty hkind
  unfold aliasName isGroup hasType name group property at *
  dsimp only [Option.getD] at *
  rw [hty, hkind, hgr, hn]

/-- A key that is left out, or has a list of texts. -/
def Lists (f : Field) (key : String) (ws : Option (List String)) : Prop :=
  f.definition.get? key = ws.map fun ws => .list (ws.map .text)

theorem Lists.iterate {key : String} {ws : Option (List String)} (h : f.Lists key ws) :
    ((f.property key).truthy = true ↔ ws.getD [] ≠ []) ∧
      (ws.getD [] ≠ [] → (f.property key).iterate = .ok ((ws.getD []).map .text)) := by
  unfold Lists at h
  unfold property Definition.get
  rw [h]
  cases ws with
  | none => exact ⟨iff_of_false Bool.false_ne_true fun h => h rfl, fun h => absurd rfl h⟩
  | some l => exact ⟨by simp [Value.truthy], fun _ => rfl⟩

/-- The words under which a group is listed. -/
def listedWords (frames intervals : Option (List String)) : List String :=
  if frames.getD [] = [] then (intervals.getD []).map (· ++ "s") else frames.getD []

theorem expand_aliases (h : make d v = .ok f) (hfrs : f.Lists "timeframes" frames)
    (hintervals : f.Lists "intervals" intervals) :
    ∃ gs, f.expand = .ok gs ∧ gs.map aliasName
      = (listedWords frames intervals).map fun w => { f with chosen := some (.text w) }.aliasName := by
  have hmake : ∀ (e : Definition) (t : Value), (∀ k ≠ "hidden", e.get? k = f.definition.get? k) →
      ∃ g, make (e.set "dimension_group" t) f.view = .ok g ∧
        g.aliasName = { f with chosen := some t }.aliasName := by
    intro e t he
    have hks : ∀ k ∈ ["name", "field_type", "type"],
        (e.set "dimension_group" t).get? k = f.definition.get? k := by
      intro k hk
      rw [Definition.get?_set, if_neg (by rintro rfl; simp at hk), he k (by rintro rfl; simp at hk)]
    obtain ⟨g, hg, hal⟩ := exists_make h hks f.view
    exact ⟨g, hg, by rw [hal, get_set, if_pos rfl]⟩
  have hrun : ∀ (ws : List String) (word : String → String) (step : Value → Result Field),
      (∀ w, ∃ g, step (.text w) = .ok g ∧
        g.aliasName = { f with chosen := some (.text (word w)) }.aliasName) →
      ∃ gs, (ws.map Value.text).mapM step = .ok gs ∧ gs.map aliasName
        = ws.map fun w => { f with chosen := some (.text (word w)) }.aliasName := by
    intro ws word step hs
    rw [mapM_map]
    obtain ⟨gs, hgs⟩ := mapM_ok_iff.mpr fun w (_ : w ∈ ws) => (hs w).imp fun _ h => h.1
    refine ⟨gs, hgs, map_of_mapM (fun w g hg => ?_) hgs⟩
    obtain ⟨g', hg', hal⟩ := hs w
    cases hg'.symm.trans hg
    exact hal
  obtain ⟨hfrs, hiterate⟩ := hfrs.iterate
  obtain ⟨hintervals, hiterate'⟩ := hintervals.iterate
  unfold expand listedWords
  by_cases hne : frames.getD [] = []
  · rw [if_neg (by simpa [hfrs] using hne), if_pos hne]
    by_cases hne' : intervals.getD [] = []
    · rw [if_neg (by simpa [hintervals] using hne'), hne']
      exact ⟨[], rfl, rfl⟩
    · rw [if_pos (hintervals.mpr hne'), hiterate' hne', map_map]
      exact hrun _ (· ++ "s") _ fun w => hmake _ _ fun _ _ => rfl
  · rw [if_pos (hfrs.mpr hne), if_neg hne, hiterate hne]
    refine hrun _ (fun w => w) _ fun w => hmake _ _ fun k hk => ?_
    split_ifs
    · rw [Definition.get?_set, if_neg (Ne.symm hk)]
    · rfl

/-- The words that the names of a group are made of. -/
def acceptedWords (f : Field) (frames intervals : Option (List String)) : List String :=
  if f.hasType "time" then frames.getD []
  else (intervals.getD defaultIntervals).map (· ++ "s")

theorem aliasName_chosen (hgr : f.isGroup = true) (w : String) :
    { f with chosen := some (.text w) }.aliasName = if f.hasType "time" then f.name ++ "_" ++ w
      else if f.hasType "duration" then w ++ "_" ++ f.name else f.name :=
  if_pos hgr

theorem groupNames_eq (hgr : f.isGroup = true)
    (hty : f.hasType "time" = true ∨ f.hasType "duration" = true)
    (hfrs : f.Lists "timeframes" frames) (hintervals : f.Lists "intervals" intervals) :
    f.groupNames = .ok ((f.acceptedWords frames intervals).map fun w =>
      { f with chosen := some (.text w) }.aliasName) := by
  unfold Lists at hfrs hintervals
  simp only [aliasName_chosen hgr]
  unfold groupNames acceptedWords
  cases htime : f.hasType "time" with
  | true =>
    rw [hgr, hfrs]
    cases frames with
    | none => rfl
    | some l => simp [Value.iterate, Value.plain, bind, Except.bind, pure, Except.pure]
  | false =>
    have hdur : f.hasType "duration" = true := hty.resolve_left (by simp [htime])
    have hplural : ∀ w : String, w ++ "s_" = w ++ "s" ++ "_" := fun w => by
      rw [String.append_assoc]
      rfl
    rw [hgr, hdur, if_neg (by decide), hintervals]
    cases intervals with
    | none => rfl
    | some l => simp [Value.iterate, Value.plain, bind, Except.bind, pure, Except.pure, hplural]

/-- **A group answers to the aliases of the fields it is listed as** exactly if, being of type time, it
has timeframes or no intervals, and, being of type duration, it has no timeframes and names its
intervals (or has the plurals of its intervals as timeframes). -/
theorem groupNames_agree_iff (h : make d v = .ok f) (hgroup : f.isGroup = true)
    (htype : f.hasType "time" = true ∨ f.hasType "duration" = true)
    (hframes : f.Lists "timeframes" frames) (hintervals : f.Lists "intervals" intervals) :
    ∃ names gs, f.groupNames = .ok names ∧ f.expand = .ok gs ∧
      ((∀ n, n ∈ names ↔ n ∈ gs.map aliasName) ↔
        if f.hasType "time" then frames.getD [] ≠ [] ∨ intervals.getD [] = []
        else if frames.getD [] = [] then intervals.isSome = true
        else ∀ w, w ∈ frames.getD [] ↔ ∃ i ∈ intervals.getD defaultIntervals, i ++ "s" = w) := by
  obtain ⟨gs, hgs, haliases⟩ := expand_aliases h hframes hintervals
  have hinjective : Function.Injective fun w => { f with chosen := some (.text w) }.aliasName := by
    intro w w' heq
    simp only [aliasName_chosen hgroup] at heq
    split_ifs at heq
    · simpa using heq
    · simpa using heq
    · simp_all
  refine ⟨_, gs, groupNames_eq hgroup htype hframes hintervals, hgs, ?_⟩
  rw [haliases]
  have hwords : (∀ n, n ∈ (f.acceptedWords frames intervals).map (fun w =>
        { f with chosen := some (.text w) }.aliasName) ↔
      n ∈ (listedWords frames intervals).map fun w =>
        { f with chosen := some (.text w) }.aliasName) ↔
      ∀ w, w ∈ f.acceptedWords frames intervals ↔ w ∈ listedWords frames intervals := by
    refine ⟨fun hall w => ?_, fun hall n => by simp [hall]⟩
    have hw := hall ({ f with chosen := some (.text w) }.aliasName)
    rwa [mem_map_of_injective hinjective, mem_map_of_injective hinjective] at hw
  rw [hwords]
  unfold acceptedWords listedWords
  by_cases hnil : frames.getD [] = []
  · cases htime : f.hasType "time" with
    | true => simp [hnil, eq_nil_iff_forall_not_mem]
    | false =>
      cases intervals with
      | none =>
        refine iff_of_false (fun hall => ?_) (by simp [hnil])
        have hdays := (hall "days").mp (by simp [defaultIntervals])
        simp [hnil] at hdays
      | some l => simp [hnil]
  · cases htime : f.hasType "time" with
    | true => simp [hnil]
    | false => simp [hnil, eq_comm, iff_comm]

/-- The time that something waits, in the default intervals. -/
def waiting (intervals : Definition) : Result Field :=
  make ([("name", .text "waiting"), ("field_type", .text "dimension_group"),
    ("type", .text "duration")] ++ intervals) default

theorem groupNames_agree_waiting :
    ∃ f names gs, waiting [("intervals", .list [.text "day"])] = .ok f ∧ f.groupNames = .ok names ∧
      f.expand = .ok gs ∧ ∀ n, n ∈ names ↔ n ∈ gs.map aliasName := by
  obtain ⟨names, gs, hnames, hgs, hagree⟩ := groupNames_agree_iff
    (show waiting [("intervals", .list [.text "day"])] = .ok _ from rfl) rfl (.inr rfl)
    (show Lists _ "timeframes" none from rfl) (show Lists _ "intervals" (some ["day"]) from rfl)
  exact ⟨_, names, gs, rfl, hnames, hgs, hagree.mpr rfl⟩

/-- Without intervals a duration answers to names under which no field is listed. -/
theorem days_waiting_unlisted :
    ∃ f names, waiting [] = .ok f ∧ f.groupNames = .ok names ∧ f.expand = .ok [] ∧
      "days_waiting" ∈ names :=
  ⟨_, _, rfl, rfl, rfl, by decide⟩

/-! ### Names read back -/

theorem hasType_unique {s t : String} (hs : f.hasType s = true) (ht : f.hasType t = true) :
    s = t := by
  unfold hasType at hs ht
  cases hv : f.property "type" <;> simp_all [Value.isTextOf]

/-- The name of a group for a timeframe or interval. -/
def nameFor (f : Field) (w : String) : String := { f with chosen := some (.text w) }.aliasName

/-- **The names of a group are read back**: from the name for a timeframe the timeframe is read
exactly if the name of the group with an underscore does not occur in it, and from the name for an
interval without underscores the interval is read. -/
theorem groupNames_read_back (hgroup : f.isGroup = true)
    (htype : f.hasType "time" = true ∨ f.hasType "duration" = true)
    (hframes : f.Lists "timeframes" frames) (hintervals : f.Lists "intervals" intervals) :
    f.groupNames = .ok ((f.acceptedWords frames intervals).map f.nameFor) ∧ ∀ w,
      if f.hasType "time" then
        (f.groupOfName (f.nameFor w) = .text w ↔ Text.contains w (f.name ++ "_") = false)
      else '_' ∉ w.toList → f.groupOfName (f.nameFor w) = .text w := by
  refine ⟨groupNames_eq hgroup htype hframes hintervals, fun w => ?_⟩
  unfold groupOfName nameFor
  rw [aliasName_chosen hgroup]
  obtain htime | hdur := htype
  · have hdur : ¬ f.hasType "duration" = true := fun h => absurd (hasType_unique htime h) (by decide)
    rw [if_pos htime, if_pos htime, if_pos htime, if_neg (by simp [hdur]), Value.text.injEq]
    exact Text.remove_front_iff fun h => by simpa using congrArg String.toList h
  · have htime : ¬ f.hasType "time" = true := fun h => absurd (hasType_unique h hdur) (by decide)
    rw [if_neg htime, if_neg htime, if_pos hdur, hdur, String.append_assoc,
      Text.contains_iff.mpr ⟨w.toList, [], by simp⟩]
    exact fun hw => congrArg Value.text (Text.remove_back hw String.toList_append)

/-- A group of the name `day`. -/
def day (t : String) : Field where
  view := default
  definition := [("name", .text "day"), ("field_type", .text "dimension_group"),
    ("type", .text "time"), ("timeframes", .list [.text t])]

theorem groupNames_read_back_day : (day "week").groupNames = .ok ["day_week"] ∧
    (day "week").groupOfName "day_week" = .text "week" := by
  obtain ⟨hnames, hread⟩ := @groupNames_read_back (day "week") (some ["week"]) none rfl (.inl rfl)
    rfl rfl
  exact ⟨hnames, (hread "week").mpr (by decide)⟩

theorem day_of_week_misread : (day "day_of_week").groupNames = .ok ["day_day_of_week"] ∧
    (day "day_of_week").groupOfName "day_day_of_week" = .text "of_week" :=
  ⟨rfl, rfl⟩

end Field

/-! ### Lookups -/

namespace Text

/-- Small letters without a dot. -/
structure IsSmall (s : String) : Prop where
  undotted : '.' ∉ s.toList
  lower : Text.lower s = s

variable {s t : String}

theorem isSmall_lower (h : '.' ∉ s.toList) : IsSmall (Text.lower s) :=
  ⟨lower_undotted h, lower_lower s⟩

theorem IsSmall.append (hs : IsSmall s) (ht : IsSmall t) : IsSmall (s ++ t) where
  undotted := by
    rw [String.toList_append, mem_append, not_or]
    exact ⟨hs.undotted, ht.undotted⟩
  lower := lower_append hs.lower ht.lower

theorem contains_undotted (h : '.' ∉ s.toList) : contains s "." = false :=
  Bool.eq_false_iff.mpr (mt contains_iff.mp (not_infix_of_not_mem h))

end Text

namespace Field

variable {f : Field} {d : Definition} {v : View}

/-- What an alias has to be, to be found. -/
structure IsFindable (f : Field) : Prop where
  isSmall : Text.IsSmall f.aliasName
  chosen : (f.isGroup && f.group.isNull) = false

theorem isFindable_of_name (hn : Text.IsSmall f.name)
    (hgr : f.isGroup = true → ∃ w, f.group = .text w ∧ Text.IsSmall w) : f.IsFindable := by
  have hbar : Text.IsSmall "_" := ⟨by decide, rfl⟩
  cases hf : f.isGroup with
  | false => exact ⟨by rw [aliasName, hf]; exact hn, by rw [hf, Bool.false_and]⟩
  | true =>
    obtain ⟨w, hw, hsm⟩ := hgr hf
    refine ⟨?_, by rw [hw, Bool.and_eq_false_iff]; exact .inr rfl⟩
    rw [aliasName, hf, if_pos rfl, hw]
    split_ifs
    · exact (hn.append hbar).append hsm
    · exact (hsm.append hbar).append hn
    · exact hn

theorem IsFindable.matching (h : f.IsFindable) {name : String} (hn : '.' ∉ name.toList) :
    f.matching? name = .ok (if f.aliasName == name then some f else none) := by
  unfold matching?
  rw [Name.parts_undotted hn, h.chosen]
  rw [if_neg (by simp), if_neg (by simp)]
  split_ifs <;> rfl

theorem text_name_of_make (h : make d v = .ok f) {n : String} (hn : d.get "name" = .text n) :
    f.property "name" = .text (Text.lower n) := by
  rw [Definition.get] at hn
  rw [property, Definition.get]
  obtain ⟨s, hs, hs'⟩ | ⟨hs, -⟩ := name_of_make h
  · rw [hs] at hn
    cases hn
    rw [hs']
    rfl
  · rw [hs] at hn
    cases hn

end Field

/-- Views have different names; no name of a view, a field or a timeframe has a dot, and timeframes
and intervals are written in small letters. -/
structure Store.IsNamed (p : Store) : Prop where
  views : (p.views.map fun e => (e.definition.get "name").plain).Nodup
  undotted : ∀ e ∈ p.views, '.' ∉ (e.definition.get "name").plain.toList
  fields : ∀ s ∈ p.shelves, ∀ d ∈ s.fields, ∃ n, d.get "name" = .text n ∧ '.' ∉ n.toList
  words : ∀ s ∈ p.shelves, ∀ d ∈ s.fields, ∀ key ∈ ["timeframes", "intervals"], ∀ ts,
    (d.get key).iterate = .ok ts → ∀ t ∈ ts, ∃ w, t = .text w ∧ Text.IsSmall w

variable {all fs : List Field} {asked : Option Model} {f g : Field} {v : View} {views : List View}

namespace Store

variable {p : Store}

theorem isFindable_of_listFields (hp : p.IsNamed) (hv : v.expanded = true)
    (h : p.listFields v = .ok fs) (hf : f ∈ fs) : f.IsFindable := by
  obtain ⟨d, hd, -, g, hg, hfg⟩ := mem_listFields h hf
  obtain ⟨s, hs, hd⟩ := exists_of_mem_fieldsOn hd
  obtain ⟨n, hn, hdot⟩ := hp.fields s hs d hd
  have hname := text_name_of_make hg (n := n) (by rwa [get_set])
  rw [hv] at hfg
  split_ifs at hfg with hgr
  · obtain ⟨gs, hgs, hf⟩ := hfg
    obtain ⟨-, -, ⟨e, he, hens⟩, hwd⟩ := mem_expand hgs hf
    have hn' := text_name_of_make he ((hens _ (by decide)).trans hname)
    refine isFindable_of_name ?_ fun _ => ?_
    · rw [name, hn', Text.lower_lower]
      exact Text.isSmall_lower hdot
    · have hwd' : ∀ key ∈ ["timeframes", "intervals"], ∀ ts, (g.property key).iterate = .ok ts →
          ∀ t ∈ ts, ∃ w, t = .text w ∧ Text.IsSmall w := by
        intro key hkey ts hts
        rw [get_of_make hg (by rcases mem_pair.mp hkey with rfl | rfl <;> decide),
          get_set, if_neg (by rintro rfl; simp at hkey)] at hts
        exact hp.words s hs d hd key hkey ts hts
      obtain ⟨ts, hts, hmem⟩ | ⟨ts, hts, t, ht, heq⟩ := hwd
      · exact hwd' _ (by decide) ts hts _ hmem
      · obtain ⟨w, rfl, hw⟩ := hwd' _ (by decide) ts hts t ht
        exact ⟨_, heq, hw.append ⟨by decide, rfl⟩⟩
  · subst hfg
    refine isFindable_of_name ?_ fun h => absurd h hgr
    rw [name, hname]
    exact Text.isSmall_lower hdot

theorem aliasName_of_agree (hch : f.chosen = g.chosen)
    (hag : Field.Agree g.definition f.definition) : f.aliasName = g.aliasName := by
  unfold aliasName isGroup hasType name group property
  rw [hch, hag.get (by decide), hag.get (by decide), hag.get (by decide), hag.get (by decide)]

theorem isFindable_of_fields (hp : p.IsNamed) {view : Option String}
    (h : p.seen.fields view true true asked = .ok fs) (hf : f ∈ fs) : f.IsFindable := by
  obtain ⟨-, v, listed, g, -, -, -, hls, hg, -, hch, -, hag⟩ := mem_fields h hf
  obtain ⟨hsm, hgr⟩ := isFindable_of_listFields hp rfl hls hg
  refine ⟨aliasName_of_agree hch hag ▸ hsm, ?_⟩
  unfold isGroup group property at hgr ⊢
  rwa [hch, hag.get (by decide), hag.get (by decide)]

theorem getField_of_parseName (hp : p.IsNamed) {name n : String} {view w : Option String}
    (hparse : Project.parseName name view = .ok (n, w)) (hn : '.' ∉ n.toList)
    (hfs : p.seen.fields w true true asked = .ok fs) :
    p.seen.getField name view asked = p.seen.single (fs.filter (·.aliasName == n)) n w := by
  unfold getField
  rw [hparse, ok_bind]
  dsimp only
  rw [hfs, ok_bind, filterMapM_of_ok fun f hf => (isFindable_of_fields hp hfs hf).matching hn,
    ok_bind, ← filterMap_eq_filter]
  rfl

theorem fields_all (h : p.seen.fields none true true asked = .ok all) :
    ∃ views found, p.listViews asked = .ok views ∧
      views.mapM (fun v => p.listFields { v with expanded := true }) = .ok found ∧
      all = found.flatten.map (settlePrefix views) := by
  obtain ⟨views, hvs, h⟩ := of_bind h
  obtain ⟨found, hfd, h⟩ := of_bind h
  cases h
  refine ⟨views, found, hvs, ?_, rfl⟩
  rw [← hfd]
  congr 1
  funext v
  exact (bind_pure _).symm

theorem getView_name (hp : p.IsNamed) (h : p.listViews asked = .ok views) (hv : v ∈ views) :
    p.seen.getView v.name asked = .ok v := by
  have hnd : (views.map View.name).Nodup := by
    rw [map_name_of_listViews h]
    refine List.Nodup.sublist (List.Sublist.map _ filter_sublist) ?_
    rw [map_map]
    exact hp.views
  unfold getView
  rw [show p.seen.listViews asked = .ok views from h, ok_bind]
  cases hfi : views.find? fun u => u.name == v.name with
  | none => simpa using List.find?_eq_none.mp hfi v hv
  | some u =>
    rw [inj_on_of_nodup_map hnd (List.mem_of_find?_eq_some hfi) hv
      (by simpa using List.find?_some hfi)]
    rfl

end Store

namespace Project

variable {p : Project} {n : String} {w : Option String}

theorem parseName_undotted {name : String} (hn : '.' ∉ name.toList) :
    parseName name none = .ok (Text.lower name, none) := by
  rw [parseName, Text.contains_undotted hn]
  rfl

theorem single_of_ne {found : List Field} (hf : f ∈ found) (hg : g ∈ found) (hne : f ≠ g) :
    ∃ e, p.single found n w = .error e ∧ e.kind = .query := by
  match found, hf, hg with
  | [_], hf, hg => exact absurd ((mem_singleton.mp hf).trans (mem_singleton.mp hg).symm) hne
  | _ :: _ :: _, _, _ => exact ⟨_, rfl, rfl⟩

theorem single_nil (h : n ≠ "count" ∨ w = none) :
    ∃ e, p.single [] n w = .error e ∧ e.kind = .access := by
  unfold single
  dsimp only
  split
  · next v hv =>
    rw [if_neg]
    · exact ⟨_, rfl, rfl⟩
    · rcases h with h | rfl
      · simpa using h
      · cases hv
  · exact ⟨_, rfl, rfl⟩

end Project

theorem Field.filter_eq_singleton {R : Field → Field → Prop} {l : List Field} {q : Field → Bool}
    (hR : ∀ f g, R f g → R g f) (h : l.Pairwise R) (hf : f ∈ l) (hq : q f = true)
    (hne : ∀ g ∈ l, R f g → q g = false) : l.filter q = [f] := by
  induction h with
  | nil => cases hf
  | @cons a l ha _ ih =>
    rw [filter_cons]
    rcases mem_cons.mp hf with rfl | hmem
    · rw [if_pos hq, filter_eq_nil_iff.mpr fun g hg => by
        simp [hne g (mem_cons_of_mem _ hg) (ha g hg)]]
    · rw [if_neg (by simp [hne a mem_cons_self (hR _ _ (ha f hmem))])]
      exact ih hmem fun g hg => hne g (mem_cons_of_mem _ hg)

namespace Store

variable {p : Store} {s : String}

theorem settlePrefix_names (views : List View) (f : Field) :
    (Project.settlePrefix views f).view = f.view ∧
      (Project.settlePrefix views f).aliasName = f.aliasName := by
  obtain ⟨hv, hch, -, hag⟩ := settlePrefix_agree views f
  exact ⟨hv, aliasName_of_agree hch hag⟩

section

variable (hp : p.IsNamed) (h : p.seen.fields none true true asked = .ok all)
include hp h

theorem getField_of_view (hvs : p.listViews asked = .ok views) (hv : v ∈ views) :
    ∃ fs, p.listFields { v with expanded := true } = .ok fs ∧
      (fs.map (settlePrefix views)).Sublist all ∧ ∀ s, '.' ∉ s.toList →
        p.seen.getField (v.name ++ "." ++ s) none asked = p.seen.single
          (fs.filter (·.aliasName == Text.lower s)) (Text.lower s) (some v.name) := by
  obtain ⟨views', found, hvs', hfd, rfl⟩ := fields_all h
  cases hvs.symm.trans hvs'
  obtain ⟨fs, hfs⟩ := mapM_ok_iff.mp ⟨found, hfd⟩ v hv
  refine ⟨fs, hfs, ?_, fun s hs => ?_⟩
  · have hmem := mem_map_of_mem
      (f := fun v => (p.listFields { v with expanded := true }).toOption) hv
    rw [← map_of_mapM (g := some) (fun v fs hfs => by rw [hfs]; rfl) hfd, hfs] at hmem
    obtain ⟨_, hmem, heq⟩ := mem_map.mp hmem
    cases heq
    exact (sublist_flatten_of_mem hmem).map _
  · have hdot : '.' ∉ v.name.toList := by
      have hmem := mem_map_of_mem (f := View.name) hv
      rw [map_name_of_listViews hvs] at hmem
      obtain ⟨d, hd, hd'⟩ := mem_map.mp hmem
      obtain ⟨e, he, rfl⟩ := mem_map.mp (mem_filter.mp hd).1
      rw [← hd']
      exact hp.undotted e he
    refine getField_of_parseName hp (parseName_dotted hdot hs) (Text.lower_undotted hs) ?_
    unfold fields
    dsimp only
    rw [getView_name hp hvs hv, ok_bind]
    unfold View.fieldsWith
    rw [show p.seen.listFields _ = .ok fs from hfs]
    rfl

theorem getField_id
    (hdis : all.Pairwise fun f g => f.view.name = g.view.name → f.aliasName ≠ g.aliasName)
    (hf : f ∈ all) (hs : '.' ∉ s.toList) (hal : Text.lower s = f.aliasName) :
    ∃ views g, p.listViews asked = .ok views ∧ f = Project.settlePrefix views g ∧
      p.seen.getField (f.view.name ++ "." ++ s) none asked = .ok g := by
  obtain ⟨views, found, hvs, hfd, rfl⟩ := fields_all h
  obtain ⟨g, hg, rfl⟩ := mem_map.mp hf
  obtain ⟨fs, hfs, hg⟩ := mem_flatten.mp hg
  obtain ⟨v, hv, hls⟩ := exists_of_mem_mapM hfd hfs
  obtain ⟨_, hls', hsub, hget⟩ := getField_of_view hp h hvs hv
  cases hls.symm.trans hls'
  refine ⟨views, g, hvs, rfl, ?_⟩
  rw [(settlePrefix_names views g).2] at hal
  have hn : (settlePrefix views g).view.name = v.name := by
    rw [(settlePrefix_names views g).1, (chosen_of_listFields hls hg).1]
    rfl
  have hprs : fs.Pairwise fun f g => f.aliasName ≠ g.aliasName := by
    refine (pairwise_map.mp (hdis.sublist hsub)).imp_of_mem fun ha hb hab => ?_
    simp only [(settlePrefix_names views _).1, (settlePrefix_names views _).2,
      (chosen_of_listFields hls ha).1, (chosen_of_listFields hls hb).1] at hab
    exact hab trivial
  rw [hn, hget s hs, filter_eq_singleton (fun _ _ => Ne.symm) hprs hg (by simp [hal])
    fun g' _ hne => by simpa [hal] using hne.symm]
  rfl

theorem getField_alias (hs : '.' ∉ s.toList) :
    p.seen.getField s none asked
      = p.seen.single (all.filter (·.aliasName == Text.lower s)) (Text.lower s) none :=
  getField_of_parseName hp (parseName_undotted hs) (Text.lower_undotted hs) h

theorem getField_unknown {view : String} (hview : '.' ∉ view.toList) (hs : '.' ∉ s.toList)
    (hct : Text.lower s ≠ "count")
    (hno : ∀ g ∈ all, g.view.name = view → g.aliasName ≠ Text.lower s) :
    ∃ e, p.seen.getField (view ++ "." ++ s) none asked = .error e ∧ e.kind = .access := by
  obtain ⟨views, -, hvs, -⟩ := fields_all h
  by_cases hv : ∃ v ∈ views, v.name = view
  · obtain ⟨v, hv, rfl⟩ := hv
    obtain ⟨fs, hls, hsub, hget⟩ := getField_of_view hp h hvs hv
    rw [hget s hs, filter_eq_nil_iff.mpr fun g hg => ?_]
    · exact single_nil (.inl hct)
    · obtain ⟨hsm, hal⟩ := settlePrefix_names views g
      rw [beq_iff_eq, ← hal]
      exact hno _ (hsub.subset (mem_map_of_mem hg)) (by rw [hsm, (chosen_of_listFields hls hg).1]; rfl)
  · have hfi : views.find? (fun v => v.name == view) = none :=
      List.find?_eq_none.mpr fun v hmem => by simpa using fun heq => hv ⟨v, hmem, heq⟩
    refine ⟨.viewNotFound view, ?_, rfl⟩
    unfold getField
    rw [parseName_dotted hview hs, ok_bind]
    dsimp only
    unfold fields getView
    rw [show p.seen.listViews asked = .ok views from hvs]
    simp only [ok_bind, hfi]
    rfl

/-- **The lookup by name is exact.**  The id of a field finds that field, up to its label prefix, in
every letter case of the alias; the alias alone finds it unless another view has that alias; and what
is no alias is not found, except the count of a view. -/
theorem getField_exact
    (hdistinct : all.Pairwise fun f g => f.view.name = g.view.name → f.aliasName ≠ g.aliasName) :
    (∀ f ∈ all, Text.lower f.aliasName = f.aliasName ∧ ∀ s, Text.lower s = f.aliasName →
      (∃ views g, p.listViews asked = .ok views ∧ f = Project.settlePrefix views g ∧
        p.seen.getField (f.view.name ++ "." ++ s) none asked = .ok g) ∧
      if ∃ g ∈ all, g.aliasName = f.aliasName ∧ g.view.name ≠ f.view.name then
        ∃ e, p.seen.getField s none asked = .error e ∧ e.kind = .query
      else p.seen.getField s none asked = .ok f) ∧
    ∀ s, '.' ∉ s.toList →
      ((∀ g ∈ all, g.aliasName ≠ Text.lower s) →
        ∃ e, p.seen.getField s none asked = .error e ∧ e.kind = .access) ∧
      ∀ view : String, '.' ∉ view.toList → Text.lower s ≠ "count" →
        (∀ g ∈ all, g.view.name = view → g.aliasName ≠ Text.lower s) →
        ∃ e, p.seen.getField (view ++ "." ++ s) none asked = .error e ∧ e.kind = .access := by
  refine ⟨fun f hf => ?_, fun s hs => ⟨fun hno => ?_, fun view hview hcount hno =>
    getField_unknown hp h hview hs hcount hno⟩⟩
  · have hsmall := (isFindable_of_fields hp h hf).isSmall
    refine ⟨hsmall.lower, fun s hs => ?_⟩
    have hdotted : '.' ∉ s.toList := by
      rw [← Text.mem_lower_dot, hs]
      exact hsmall.undotted
    refine ⟨getField_id hp h hdistinct hf hdotted hs, ?_⟩
    rw [getField_alias hp h hdotted, hs]
    split_ifs with hother
    · obtain ⟨g, hg, halias, hview⟩ := hother
      refine Project.single_of_ne (f := f) (g := g) ?_ ?_ fun heq => hview (heq ▸ rfl)
      · exact mem_filter.mpr ⟨hf, by simp⟩
      · exact mem_filter.mpr ⟨hg, by simp [halias]⟩
    · rw [Field.filter_eq_singleton (fun f g hfg hview halias => hfg hview.symm halias.symm) hdistinct
        hf (by simp) fun g hg hfg => ?_]
      · rfl
      · by_contra halias
        rw [Bool.not_eq_false, beq_iff_eq] at halias
        exact hother ⟨g, hg, halias, fun hview => hfg hview.symm halias.symm⟩
  · rw [getField_alias hp h hs, filter_eq_nil_iff.mpr fun g hg => by simpa using hno g hg]
    exact Project.single_nil (.inr rfl)

end

/-- Orders and refunds, each with the day it was made. -/
def dated : Store :=
  { (default : Store) with
    views := ["orders", "refunds"].map fun n => ⟨[("name", .text n)], some 0⟩,
    shelves := [⟨[[("name", .text "Made"), ("field_type", .text "dimension_group"),
      ("type", .text "time"), ("timeframes", .list [.text "date"])]], .null⟩] }

theorem getField_exact_dated :
    (∃ f, dated.seen.getField "orders.MADE_Date" none none = .ok f) ∧
      (∃ e, dated.seen.getField "made_date" none none = .error e ∧ e.kind = .query) ∧
      ∃ e, dated.seen.getField "refunds.made_week" none none = .error e ∧ e.kind = .access := by
  have hnamed : dated.IsNamed := by
    refine ⟨by decide, by decide, by simp [dated, Definition.get, Definition.get?], ?_⟩
    intro s hs d hd key hkey ts hts t ht
    cases mem_singleton.mp hs
    cases mem_singleton.mp hd
    rcases mem_pair.mp hkey with rfl | rfl
    · cases hts
      exact ⟨_, mem_singleton.mp ht, by decide, rfl⟩
    · cases hts
  obtain ⟨hfound, hunknown⟩ := getField_exact hnamed
    (show dated.seen.fields none true true none = .ok _ from rfl) (by simp; decide)
  obtain ⟨⟨_, f, -, -, hf⟩, -⟩ := (hfound _ (mem_cons_self ..)).2 "MADE_Date" rfl
  have hsame := ((hfound _ (mem_cons_self ..)).2 "made_date" rfl).2
  rw [if_pos ⟨_, mem_cons_of_mem _ (mem_singleton.mpr rfl), rfl, by decide⟩] at hsame
  exact ⟨⟨f, hf⟩, hsame, (hunknown "made_week" (by decide)).2 "refunds" (by decide) (by decide)
    (by decide)⟩

end Store

end SemanticLayer
