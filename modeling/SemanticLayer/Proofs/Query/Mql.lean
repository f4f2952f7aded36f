import SemanticLayer.Proofs.Query.Frame
import SemanticLayer.Proofs.Query.Omission
import SemanticLayer.Proofs.Query.Renaming
import SemanticLayer.Proofs.Sql.CallTree

/-!
# Calls in SQL text

A text that is one call for some metrics by some dimensions is converted to the statement of the
request for them (`Mql.convert_callText`).  The call leaves conditions out where a request has empty
lists, so it ends like that request unless it is for cumulative metrics
(`Session.convert_callText`).
-/

namespace SemanticLayer

open SemanticLayer.Action List

variable {ms : List String} {r : Reading} {s : String} {n : Sql.Node}

variable {ns : List String}

/-! ### Texts -/

namespace Text

theorem replace_self (hs : s ≠ "") (t : String) : replace s s t = t := by
  have hne : s.toList ≠ [] := fun h => hs (String.toList_eq_nil_iff.mp h)
  unfold replace
  rw [if_neg (by simpa using hs)]
  have h := replaceChars_own hne t.toList []
  rw [append_nil] at h
  rw [h]
  simp [replaceChars]

theorem mem_dropWhile {α : Type} {p : α → Bool} {l : List α} {x : α} (hx : x ∈ l)
    (hp : p x = false) : x ∈ l.dropWhile p := by
  rw [← takeWhile_append_dropWhile (p := p) (l := l), mem_append] at hx
  refine hx.resolve_left fun h => ?_
  rw [mem_takeWhile_imp h] at hp
  cases hp

theorem mem_strip {c : Char} (hc : c ∈ s.toList) (hbl : isBlank c = false) :
    c ∈ (strip s).toList := by
  unfold strip
  rw [String.toList_ofList, mem_reverse]
  exact mem_dropWhile (mem_reverse.mpr (mem_dropWhile hc hbl)) hbl

end Text

namespace Mql

/-! ### Names in a call -/

theorem isFunnelWord_comma (hs : ',' ∈ s.toList) : isFunnelWord s = false := by
  have hupper : ',' ∈ (Text.upper s).toList := by
    unfold Text.upper
    rw [String.toList_ofList, mem_flatMap]
    exact ⟨',', hs, by decide +kernel⟩
  have hmem := Text.mem_strip hupper (by decide +kernel)
  unfold isFunnelWord
  rw [beq_eq_false_iff_ne]
  intro h
  rw [h] at hmem
  simp at hmem

/-- The names that are heard in a list: one that reads `funnel` begins a funnel if it stands
alone. -/
def heard : List String → List String
  | [n] => if isFunnelWord n then [] else [n]
  | ns => ns

theorem heard_eq_self (h : ∀ n, ns = [n] → isFunnelWord n = false) : heard ns = ns := by
  unfold heard
  split
  · rw [h _ rfl]
    rfl
  · rfl

/-! ### Reading a call -/

namespace Reading

def take (r : Reading) (ns : List String) : Reading :=
  match r.mode with
  | .metrics => { r with metrics := r.metrics ++ ns }
  | .dimensions => { r with dimensions := r.dimensions ++ ns }
  | _ => r

/-- The reading goes on as before, or waits for the steps of a funnel. -/
structure Continues (r r' : Reading) : Prop where
  eq : r' = { r with mode := r'.mode, step := r'.step }
  mode : r'.mode = r.mode ∨ r'.mode = .funnel ∧ r'.step = some []

def IsOpen (r : Reading) : Prop := r.mode = .metrics ∨ r.mode = .dimensions

theorem IsOpen.source (hr : r.IsOpen) : (r.mode == .source) = false := by
  obtain h | h := hr <;> rw [h] <;> rfl

theorem IsOpen.funnel (hr : r.IsOpen) : (r.mode == .funnel) = false := by
  obtain h | h := hr <;> rw [h] <;> rfl

@[simp] theorem take_nil (r : Reading) : r.take [] = r := by
  unfold take
  split <;> simp

theorem take_take (r : Reading) (ns ns' : List String) :
    (r.take ns).take ns' = r.take (ns ++ ns') := by
  obtain ⟨mode, metrics, dimensions, wheres, havings, orders, steps, step, view, within⟩ := r
  cases mode <;> simp [take]

theorem IsOpen.take (hr : r.IsOpen) : (r.take ns).IsOpen := by
  obtain h | h := hr <;> simp [IsOpen, Reading.take, h]

theorem IsOpen.add (hr : r.IsOpen) (sql n : String) : r.add sql n = .ok (r.take [n]) := by
  unfold Reading.add Reading.take
  obtain h | h := hr <;> rw [h]

end Reading

open Sql.Node in
theorem items_namesNodes (ns : List String) :
    (Sql.Node.group .identifierList (namesNodes ns)).items = ns.map named := by
  have hfurther : ∀ ns : List String, (ns.flatMap further).filter
      (fun c => !(c.isBlank || c.isSign [","])) = ns.map named := by
    intro ns
    induction ns with
    | nil => rfl
    | cons n ns ih =>
      rw [flatMap_cons, filter_append, ih]
      rfl
  unfold items children
  cases ns with
  | nil => rfl
  | cons n ns =>
    unfold namesNodes
    rw [filter_cons_of_pos rfl, hfurther]
    rfl

theorem step_waiting (hr : r.mode = .funnel) (sql : String)
    (hwd : (n.isToken .keyword || isFunnelWord n.text) = false) :
    step sql r n = funnelStep r n.text := by
  have hsrc : (r.mode == .source) = false := by rw [hr]; rfl
  have hfn : (r.mode == .funnel) = true := by rw [hr]; rfl
  simp only [step, hwd, hsrc, hfn, Bool.false_and, Bool.false_eq_true, if_false, if_true]

theorem modeAfter_funnelWord {text : String} (h : isFunnelWord text = true) (mode : Mode) :
    (modeAfter (Text.upper text) mode = mode ∨ modeAfter (Text.upper text) mode = .funnel) ∧
      Text.upper text ≠ "THEN" ∧ Text.upper text ≠ "SOURCE" := by
  have hne : ∀ word : String, Text.strip word ≠ "FUNNEL" → Text.upper text ≠ word := by
    rintro word hwd rfl
    exact hwd (beq_iff_eq.mp h)
  refine ⟨?_, hne _ (by decide +kernel), hne _ (by decide +kernel)⟩
  unfold modeAfter
  split
  case h_8 => exact .inl rfl
  all_goals first | exact .inr rfl | exact absurd ‹_› (hne _ (by decide +kernel))

section

variable (hr : r.IsOpen) (sql : String)
include hr

open Sql.Node in
theorem foldlM_add (ns : List String) :
    (ns.map named).foldlM (fun r i => r.add sql i.text) r = .ok (r.take ns) := by
  induction ns generalizing r with
  | nil => rw [Reading.take_nil]; rfl
  | cons n ns ih => rw [map_cons, foldlM_cons, text_named, hr.add, Result.ok_bind, ih hr.take,
      Reading.take_take, singleton_append]

theorem plainStep_open (n : Sql.Node) :
    plainStep sql r n = if n.isKind .identifier && !isFunnelWord n.text then r.add sql n.text
      else if n.isKind .identifierList then n.items.foldlM (fun r i => r.add sql i.text) r
      else if n.isKind .where_ then .ok { r with wheres := n.children }
      else .ok r := by
  obtain ⟨mode, metrics, dimensions, wheres, havings, orders, steps, step, view, within⟩ := r
  obtain rfl | rfl : mode = .metrics ∨ mode = .dimensions := hr
  · rfl
  · rfl

theorem step_open (hwd : (n.isToken .keyword || isFunnelWord n.text) = false) :
    step sql r n = plainStep sql r n := by
  simp only [step, hwd, hr.source, hr.funnel, Bool.false_and, Bool.false_eq_true, if_false]

open Sql.Node in
theorem step_named (n : String) :
    ∃ r', step sql r (named n) = .ok r' ∧ (r.take (heard [n])).Continues r' := by
  by_cases hfn : isFunnelWord n = true
  · have hpl : ∀ {r : Reading}, r.IsOpen → plainStep sql r (named n) = .ok r := by
      intro r hr
      rw [plainStep_open hr, text_named, hfn]
      rfl
    have hheard : heard [n] = [] := by simp only [heard, hfn, if_true]
    rw [hheard, Reading.take_nil]
    obtain ⟨hmode, hthen, hsrc⟩ := modeAfter_funnelWord hfn r.mode
    by_cases hconj : isConjunction n = true
    · refine ⟨r, ?_, rfl, .inl rfl⟩
      simp only [step, text_named, hr.source, hr.funnel, hconj, Bool.false_and,
        Bool.not_true, Bool.and_false, Bool.false_eq_true, if_false, hpl hr]
    · obtain hmode | hmode := hmode
      · refine ⟨r, ?_, rfl, .inl rfl⟩
        simp only [step, text_named, hr.source, hr.funnel, hconj, hfn, hmode,
          Bool.false_and, Bool.or_true, Bool.not_false, Bool.and_self, Bool.false_eq_true,
          if_false, if_true, beq_eq_false_iff_ne.mpr hsrc, Bool.and_false, pure_bind, hpl hr]
      · refine ⟨{ r with mode := .funnel, step := some [] }, ?_, rfl, .inr ⟨rfl, rfl⟩⟩
        simp [step, text_named, hr.source, hconj, hfn, hmode, hthen, pure, Except.pure]
  · have hheard : heard [n] = [n] := by simp only [heard, hfn, Bool.false_eq_true, if_false]
    have hwd : (isToken .keyword (named n) || isFunnelWord (named n).text) = false := by
      rw [text_named]
      simpa [named, isToken] using hfn
    rw [hheard]
    refine ⟨r.take [n], ?_, rfl, .inl rfl⟩
    rw [step_open hr sql hwd, plainStep_open hr, text_named, if_pos, hr.add]
    simpa [named, isKind] using hfn

open Sql.Node in
theorem step_listNode (hne : ns ≠ []) :
    ∃ r', step sql r (listNode ns) = .ok r' ∧ (r.take (heard ns)).Continues r' := by
  match ns, hne with
  | [n], _ => exact step_named hr sql n
  | n :: m :: ms, _ =>
    have htx : isFunnelWord (listNode (n :: m :: ms)).text = false := by
      refine isFunnelWord_comma ?_
      rw [text_listNode, Sql.Token.toList_join]
      simp [List.intercalate]
    refine ⟨r.take (n :: m :: ms), ?_, rfl, .inl rfl⟩
    rw [step_open hr sql (by rw [htx]; rfl), plainStep_open hr]
    exact (congrArg (List.foldlM _ r) (items_namesNodes _)).trans (foldlM_add hr sql _)

end

theorem foldlM_by (hr : r.mode = .metrics ∨ r.mode = .funnel ∧ r.step = some [])
    (sql : String) : ∃ step', ([.leaf ⟨.whitespace, " "⟩, .leaf ⟨.keyword, "BY"⟩,
      .leaf ⟨.whitespace, " "⟩] : List Sql.Node).foldlM (step sql) r
        = .ok { r with mode := .dimensions, step := step' } := by
  have hbl : isFunnelWord " " = false ∧ isConjunction " " = false := by decide +kernel
  have hby : isConjunction "BY" = false ∧ Text.upper "BY" = "BY" := by decide +kernel
  have hspace : ∀ {r : Reading}, r.IsOpen → step sql r (.leaf ⟨.whitespace, " "⟩) = .ok r := by
    intro r hr
    rw [step_open hr sql (by exact hbl.1), plainStep_open hr]
    rfl
  have hwd : ∀ {r : Reading}, (r.mode == .source) = false →
      step sql r (.leaf ⟨.keyword, "BY"⟩) = .ok { r with mode := .dimensions } := by
    intro r hr
    have hopen : Reading.IsOpen { r with mode := .dimensions } := .inr rfl
    have hpl := plainStep_open hopen sql (.leaf ⟨.keyword, "BY"⟩)
    have hmode : modeAfter "BY" r.mode = .dimensions := rfl
    simp only [step, Sql.Node.text, Sql.Node.isToken, hr, hby] at hpl ⊢
    exact hpl
  have hfst : ∃ step', step sql r (.leaf ⟨.whitespace, " "⟩) = .ok { r with step := step' } := by
    obtain hr | ⟨hmode, hs⟩ := hr
    · exact ⟨r.step, hspace (.inl hr)⟩
    · have hfi : (Text.upper " " == "THEN") = false ∧
          Text.find? (Text.lower " ") "within" = none := by decide +kernel
      refine ⟨some [" "], (step_waiting hmode sql (by exact hbl.1)).trans ?_⟩
      simp [funnelStep, Sql.Node.text, hfi, Reading.currentStep, hs, pure, Except.pure, bind,
        Except.bind]
  obtain ⟨step', hfst⟩ := hfst
  have hsrc : (r.mode == .source) = false := by
    obtain hr | ⟨hr, -⟩ := hr <;> rw [hr] <;> rfl
  refine ⟨step', ?_⟩
  rw [foldlM_cons, hfst, Result.ok_bind, foldlM_cons,
    hwd (r := { r with step := step' }) hsrc, Result.ok_bind, foldlM_cons,
    hspace (.inr rfl)]
  rfl

open Sql.Node in
theorem request_call (sql : String) (options : Definition) (hms : ms ≠ []) (ds : List String) :
    request sql options (enclosed (listNode ms :: byNodes ds)) = .ok
      ({ metrics := heard ms, dimensions := heard ds, options := options } : Request).bare := by
  obtain ⟨r, hmetrics, heq, hmode⟩ := step_listNode (r := {}) (.inl rfl) sql hms
  have hrd : ∃ mode' step', (listNode ms :: byNodes ds).foldlM (step sql) {} = .ok
      { mode := mode', metrics := heard ms, dimensions := heard ds, step := step' } := by
    rw [foldlM_cons, hmetrics, Result.ok_bind]
    by_cases hds : ds = []
    · refine ⟨r.mode, r.step, ?_⟩
      rw [byNodes, hds]
      exact congrArg Except.ok heq
    · obtain ⟨step', hby⟩ := foldlM_by (r := r) hmode sql
      obtain ⟨r', hdim, heq', -⟩ := step_listNode
        (r := { r with mode := .dimensions, step := step' }) (.inr rfl) sql hds
      refine ⟨r'.mode, r'.step, ?_⟩
      have hnod : byNodes ds = [.leaf ⟨.whitespace, " "⟩, .leaf ⟨.keyword, "BY"⟩,
          .leaf ⟨.whitespace, " "⟩] ++ [listNode ds] := if_neg hds
      rw [hnod, foldlM_append, hby, Result.ok_bind, foldlM_cons, hdim]
      refine congrArg Except.ok (heq'.trans ?_)
      rw [heq]
      rfl
  obtain ⟨mode', step', hrd⟩ := hrd
  have hinner : ((enclosed (listNode ms :: byNodes ds)).children.drop 1).dropLast
      = listNode ms :: byNodes ds := by
    rw [enclosed, children, append_assoc, singleton_append, drop_one, tail_cons, dropLast_concat]
  unfold request
  rw [hinner]
  exact congrArg (· >>= _) hrd

/-! ### Converting -/

/-- What a text that is one call is converted to: the statement of the call, with a semicolon at its
end.  An empty statement leaves the call as it stands. -/
def answer (call : String) (c : CompiledQuery) : String :=
  let text := if c.sql.isEmpty then call else c.sql
  if text.endsWith ";" then text else text ++ ";"

open Sql in
theorem callText_ne_empty (ms ds : List String) : callText ms ds ≠ "" := by
  intro h
  have htx := congrArg String.toList h
  simp [callText] at htx

open Sql in
/-- The answer is the statement with its end, unless it is empty, or has a semicolon of its own
where one is added, or has none where the warehouse allows none. -/
theorem answer_eq_text (ms ds : List String) (c : CompiledQuery) :
    answer (callText ms ds) c = c.text ↔
      c.sql ≠ "" ∧ (c.sql.endsWith ";" = true ↔ c.warehouse = some .druid) := by
  have hlonger : c.sql ++ ";" ≠ c.sql := by
    intro h
    have hlen := congrArg String.length h
    simp at hlen
  unfold answer CompiledQuery.text
  by_cases hem : c.sql = ""
  · refine ⟨fun h => ?_, fun h => absurd hem h.1⟩
    -- the call begins with another letter than an empty statement with its end
    have hhead := congrArg (fun s => s.toList.head?) h
    have hisEmpty : "".isEmpty = true := rfl
    rw [hem, hisEmpty, if_pos rfl] at hhead
    dsimp only at hhead
    split_ifs at hhead <;> simp [callText] at hhead
  · have hnonempty : c.sql.isEmpty = false := by simpa using hem
    by_cases hends : c.sql.endsWith ";" = true <;> by_cases hdruid : c.warehouse = some .druid <;>
      simp [hdruid, hem, hlonger.symm]

open Sql Sql.Node in
theorem callSql_callNode (connections : List Connection) (options : Definition)
    (hms : ms ≠ []) (ds : List String) :
    callSql connections options (callText ms ds) (callNode ms ds) = (do
      let q : Request := { metrics := heard ms, dimensions := heard ds, options := options }
      return some (← q.bare.compile connections).sql) := by
  have hn : (Text.upper (named "MQL").text != functionName) = false := by
    decide +kernel
  have htx : ((callNode ms ds).text == callText ms ds) = true := by
    rw [text_callNode, beq_self_eq_true]
  have hlift : ∀ (q : Request) (f : Request → Action (Option String)),
      ((liftM (Except.ok q : Result Request) : Action Request) >>= f) = f q :=
    fun q f => pure_bind q f
  have hgr : (callNode ms ds).isGroup = true := rfl
  have hchildren : (callNode ms ds).children
      = [named "MQL", enclosed (listNode ms :: byNodes ds)] := rfl
  simp only [callSql, hgr, hchildren, hn, htx, request_call (callText ms ds) options hms ds,
    hlift, Bool.not_true, Bool.false_eq_true, if_false, if_true]

open Sql Sql.Node in
/-- **A text that is one call is converted to the statement of the request for the names that are
heard in it, without conditions and without an order.** -/
theorem convert_call (connections : List Connection) (options : Definition) {ds : List String}
    (hms : ∀ m ∈ ms, Token.IsName m) (hne : ms ≠ []) (hds : ∀ d ∈ ds, Token.IsName d)
    (w : Workspace) : (convert connections options (callText ms ds) w).1 =
      ((({ metrics := heard ms, dimensions := heard ds, options := options } : Request).bare.compile
        connections w).1).map (answer (callText ms ds)) := by
  have hk : isKind .function (callNode ms ds) = true := rfl
  have hrpl : ∀ s, Text.replace (callText ms ds) (callText ms ds) s = s :=
    Text.replace_self (callText_ne_empty ms ds)
  have hconvert : convert connections options (callText ms ds) = (do
      let q : Request := { metrics := heard ms, dimensions := heard ds, options := options }
      return answer (callText ms ds) (← q.bare.compile connections)) := by
    unfold convert
    rw [parse?_callText hms hne hds]
    simp only [foldlM_cons, foldlM_nil, convertStep, hk, if_true, replaceCall,
      callSql_callNode connections options hne ds, bind_assoc, pure_bind, text_callNode, hrpl,
      answer]
  rw [hconvert]
  exact fst_bind_pure (fun _ => rfl) w

end Mql

/-! ### Sessions -/

namespace Session

/-- Under the options of the session the request is resolved, and tried as a single query with
cumulative metrics. -/
def IsCumulative (s : Session) (q : Request) : Prop :=
  ∃ connections, s.connections = .ok connections ∧
    ({ q with options := s.options.merge q.options } : Request).IsCumulative connections s.workspace

open Sql in
/-- **Calls and requests agree, cumulative metrics and the end of the statement apart.** -/
theorem convert_callText (s : Session) (options : Definition) {ms ds : List String}
    (hms : ∀ m ∈ ms, Token.IsName m) (hne : ms ≠ []) (hds : ∀ d ∈ ds, Token.IsName d) :
    let q : Request :=
      { metrics := Mql.heard ms, dimensions := Mql.heard ds, options := options }
    (¬ s.IsCumulative q → (s.convert (callText ms ds) options).1
      = (s.compile q).1.map (Mql.answer (callText ms ds))) ∧
    (s.IsCumulative q → (s.convert (callText ms ds) options).1 = malformed .wrongType) ∧
    (∀ c : CompiledQuery, Mql.answer (callText ms ds) c = c.text ↔
      c.sql ≠ "" ∧ (c.sql.endsWith ";" = true ↔ c.warehouse = some .druid)) ∧
    ((∀ n, ms = [n] ∨ ds = [n] → Mql.isFunnelWord n = false) →
      q.metrics = ms ∧ q.dimensions = ds) := by
  intro q
  have hconvert : ∀ connections, s.connections = .ok connections →
      (s.convert (callText ms ds) options).1
        = (({ q with options := s.options.merge options } : Request).bare.compile connections
          s.workspace).1.map (Mql.answer (callText ms ds)) := by
    intro connections h
    unfold Session.convert
    rw [h]
    exact Mql.convert_call connections _ hms hne hds s.workspace
  have hbare := fun connections => Request.IsUnasked.compile_bare
    (q := { q with options := s.options.merge options }) ⟨rfl, rfl, rfl, rfl⟩ connections
    s.workspace
  refine ⟨fun hnot => ?_, fun ⟨connections, h, hcumulative⟩ => ?_, Mql.answer_eq_text ms ds,
    fun h => ⟨?_, ?_⟩⟩
  · cases h : s.connections with
    | error e =>
      unfold Session.convert Session.compile
      rw [h]
      rfl
    | ok connections =>
      rw [hconvert connections h, (hbare connections).1 fun hc => hnot ⟨connections, h, hc⟩]
      unfold Session.compile
      rw [h]
      rfl
  · rw [hconvert connections h, (hbare connections).2 hcumulative]
    rfl
  · exact Mql.heard_eq_self fun n hn => h n (.inl hn)
  · exact Mql.heard_eq_self fun n hn => h n (.inr hn)

end Session

/-! ### Spending -/

namespace Cash

def soFar : Definition :=
  [("name", .text "so_far"), ("field_type", .text "measure"), ("type", .text "cumulative"),
   ("measure", .text "spent")]

def spending : Session := session [spent, soFar]

def queryType (name : String) : Definition := [("query_type", .text name)]

def daily : Request :=
  { metrics := ["spent"], dimensions := ["at_date"], options := queryType "SNOWFLAKE" }

theorem daily_not_cumulative : ¬ spending.IsCumulative daily := by
  have hck : (match Resolution.ofRequest [] daily spending.workspace with
      | (.ok r, w) => ((r.single (Resolution.heldBy w .rows r.wheres)
          (Resolution.heldBy w .groups r.havings)).opening w.project.seen).map
            fun o : Design × Bool × Bool => o.2.2
      | (.error e, _) => .error e).toOption = some false := by decide +kernel
  rintro ⟨connections, hcon, r, w, hrun, -, d, isUngrouped, hopening⟩
  cases hcon
  change Resolution.ofRequest [] daily spending.workspace = (.ok r, w) at hrun
  rw [hrun] at hck
  dsimp only at hck
  rw [hopening] at hck
  cases hck

def failsForType {α : Type} : Result α → Bool
  | .error (.malformed .wrongType) => true
  | _ => false

end Cash

open Sql in
theorem Session.convert_callText_daily :
    (∀ m ∈ ["spent"], Token.IsName m) ∧ (∀ d ∈ ["at_date"], Token.IsName d) ∧
    callText ["spent"] ["at_date"] = "MQL(spent BY at_date)" ∧
    ¬ Cash.spending.IsCumulative Cash.daily ∧
    (Cash.spending.convert (callText ["spent"] ["at_date"]) (Cash.queryType "SNOWFLAKE")).1
      = (Cash.spending.compile Cash.daily).1.map (Mql.answer (callText ["spent"] ["at_date"])) := by
  have hms : ∀ m ∈ ["spent"], Token.IsName m := by
    unfold Token.IsName
    decide +kernel
  have hds : ∀ d ∈ ["at_date"], Token.IsName d := by
    unfold Token.IsName
    decide +kernel
  refine ⟨hms, hds, by decide +kernel, Cash.daily_not_cumulative, ?_⟩
  have hagree := (convert_callText Cash.spending (Cash.queryType "SNOWFLAKE") hms (by simp) hds).1
  have hheard : Mql.heard ["spent"] = ["spent"] ∧ Mql.heard ["at_date"] = ["at_date"] := by
    decide +kernel
  rw [hheard.1, hheard.2] at hagree
  exact hagree Cash.daily_not_cumulative

/-- A call for a cumulative metric fails where the request does not, and a call ends with a
semicolon where the warehouse allows none. -/
theorem Cash.calls_differ :
    let soFar : Request := { metrics := ["so_far"], options := queryType "SNOWFLAKE" }
    let spent : Request := { metrics := ["spent"], options := queryType "DRUID" }
    (spending.compile soFar).1.isOk = true ∧
    failsForType (spending.convert "MQL(so_far)" (queryType "SNOWFLAKE")).1 = true ∧
    ((spending.compile spent).1.map CompiledQuery.text).toOption
      = some "SELECT SUM(cash.spent) as cash_spent FROM cash cash" ∧
    (spending.convert "MQL(spent)" (queryType "DRUID")).1.toOption
      = some "SELECT SUM(cash.spent) as cash_spent FROM cash cash;" := by
  refine ⟨?_, ?_, ?_, ?_⟩ <;> decide +kernel

end SemanticLayer
