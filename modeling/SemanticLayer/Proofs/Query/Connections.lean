import SemanticLayer.Proofs.Query.Frame
import SemanticLayer.Proofs.Query.Orders

/-!
# The connection of a query

A request runs on the connection that its model names.  A text with calls in it runs on no
connection: none is known to the session behind the conversion (`Session.query_connection`).
-/

namespace SemanticLayer

open SemanticLayer.Action

namespace Resolution

variable {r s : Resolution} {w w' : Workspace}

theorem replace_connection {names : Names} {old : String} {f : Field}
    (h : r.replace names old f w = (.ok s, w')) : s.connection = r.connection := by
  iterate 4 obtain ⟨_, _, -, h⟩ := of_bind h
  obtain ⟨rfl, -⟩ := pure_eq_ok.mp h
  rfl

theorem resolveNames_connection (h : r.resolveNames w = (.ok s, w')) :
    s.connection = r.connection := by
  iterate 7 obtain ⟨_, _, -, h⟩ := of_bind h
  split_ifs at h
  · obtain ⟨rfl, -⟩ := pure_eq_ok.mp h
    rfl
  · exact replaced_induct (P := (·.connection = r.connection)) id
      (fun _ hs hrun => (replace_connection hrun).trans hs) rfl (.inr h)
  · exact replaced_induct (P := (·.connection = r.connection)) id
      (fun _ hs hrun => (replace_connection hrun).trans hs) rfl (.inl h)

theorem ofRequest_connection {connections : List Connection} {q : Request}
    (h : ofRequest connections q w = (.ok r, w')) : ∃ m, modelFor w.project q = .ok m ∧
      r.connection = connections.find? fun c => c.name.same (m.definition.get "connection") := by
  rw [ofRequest_eq] at h
  obtain ⟨r0, w1, htaken, h⟩ := of_bind h
  rw [taken, modify_bind] at htaken
  obtain ⟨m, hm, htaken⟩ := of_lift_bind (of_project_bind htaken)
  iterate 7 obtain ⟨_, _, -, htaken⟩ := of_bind htaken
  obtain ⟨rfl, -⟩ := pure_eq_ok.mp htaken
  exact ⟨m, hm, resolveNames_connection h⟩

end Resolution

/-- **A compiled request runs on the connection that its model names**, which is none only if no
connection has that name.  A text never runs on a connection. -/
theorem Session.query_connection {s s' : Session} {q : Request} {c : CompiledQuery}
    (h : s.compile q = (.ok c, s')) : (∃ cs m, s.connections = .ok cs ∧
      Resolution.modelFor s.project { q with options := s.options.merge q.options } = .ok m ∧
      (c.connection = cs.find? fun x => x.name.same (m.definition.get "connection")) ∧
      s.query q none = (s'.runQuery (.text c.text) c.connection q.options, s')) ∧
    ∀ text, (s.query q (some text)).1.calls = [] ∧
      (s.query q (some text)).1.outcome.toBool = false := by
  constructor
  · rw [query, h]
    unfold compile at h
    cases hcs : s.connections with
    | error e =>
      rw [hcs] at h
      cases h
    | ok cs =>
      rw [hcs] at h
      obtain ⟨hrun, -⟩ := Prod.mk.inj h
      obtain ⟨r, w, hr, hrun⟩ := of_bind (Prod.ext hrun rfl)
      obtain ⟨m, hm, hconnection⟩ := Resolution.ofRequest_connection hr
      obtain ⟨⟨sql, kind⟩, -, rfl⟩ := of_bind_pure hrun
      exact ⟨cs, m, rfl, hm, hconnection, rfl⟩
  · intro text
    unfold query
    dsimp only
    split <;> exact ⟨rfl, rfl⟩

namespace Cash

def online : Session :=
  { session [spent] with declared := [.ready ⟨.snowflake, .text "wh", [], none⟩] }

theorem query_connection_online : ∃ c s', online.compile (request "cash.spent") = (.ok c, s') ∧
    c.connection.isSome = true ∧ online.query (request "cash.spent") none
      = (s'.runQuery (.text c.text) c.connection (request "cash.spent").options, s') := by
  have hok : (online.compile (request "cash.spent")).1.toOption.any (·.connection.isSome) = true := by
    decide +kernel
  rcases hrun : online.compile (request "cash.spent") with ⟨e | c, s'⟩
  · rw [hrun] at hok
    cases hok
  · rw [hrun] at hok
    obtain ⟨cs, m, -, -, -, hquery⟩ := (Session.query_connection hrun).1
    exact ⟨c, s', rfl, hok, hquery⟩

/-- A text whose call is compiled runs nowhere, although its model names a connection. -/
theorem text_runs_nowhere : (online.convert "MQL(cash.spent)" []).1.toBool = true ∧
    (online.query {} (some "MQL(cash.spent)")).1.calls = [] := by
  constructor <;> decide +kernel

end Cash

end SemanticLayer
