import SemanticLayer.Repository.Load
import SemanticLayer.Proofs.Repository.KeyFiles

/-!
# Clones

A project is read from a clone, and the clone is removed once it was read.  So it stays on disk
where reading fails, and only there (`Repository.load_leaves_clone_iff`).
-/

namespace SemanticLayer

open List HostAction

namespace Disk

variable {d : Disk} {here names rest : List String}

theorem follow_eq_foldl (h : d.follow here rest = some names) :
    rest.foldl Path.step here = names := by
  induction rest generalizing here with
  | nil => exact Option.some.inj h
  | cons name rest ih =>
    simp only [follow] at h
    split_ifs at h
    exact ih h

theorem hasFolder_remove {path : String} (hroot : d.locate path ≠ some []) :
    (d.remove path).hasFolder path = false := by
  rcases hpath : d.locate path with _ | names
  · simp [remove, hasFolder, hpath]
  · rw [remove, hpath, hasFolder]
    split
    next names' hlater =>
      obtain rfl : names = names' := (follow_eq_foldl hpath).symm.trans (follow_eq_foldl hlater)
      have hne : names ≠ [] := fun h => hroot (hpath.trans (congrArg some h))
      have hgone : ∀ (n : List String) (e : DiskEntry), (n, e) ∈ d.entries →
          names.isPrefixOf n = false → n ≠ names := by
        rintro n e - hnot rfl
        rw [ isPrefixOf_iff_prefix.mpr prefix_rfl] at hnot
        cases hnot
      rw [isFolderAt, entry?, if_neg (by simpa using hne), find?_eq_none.mpr (by simpa using hgone)]
      rfl
    next => rfl

end Disk

namespace Repository

section

variable {r fetched : Repository} {key : Option Host.PrivateKey} {h after : Host} {url : String}
  {branch : Value} {connections : List Connection}

theorem delete_apply (hremote : r.origin = .remote url branch) (h : Host) :
    r.delete none h = (.ok (), { h with
      disk := if h.disk.hasFolder r.folder then h.disk.remove r.folder else h.disk }) := by
  simp only [delete, hremote]
  rfl

variable (hfetch : r.fetch key h = (.ok fetched, after))
include hfetch

theorem disk_load_of_error {e : Error}
    (he : fetched.definitions after.disk after.loader = .error e) :
    (r.load connections key h).2.disk = after.disk := by
  have hdisk : after.disk? = (.ok after.disk, after) := rfl
  have hget : (get : HostAction Host) after = (.ok after, after) := rfl
  rw [load, bind_apply, hfetch]
  simp only [bind_apply, hdisk, hget, Action.lift_apply, he]

variable (hremote : r.origin = .remote url branch)
include hremote

theorem fetch_keeps : fetched.origin = .remote url branch ∧ fetched.folder = r.folder := by
  simp only [fetch, hremote, bind_apply] at hfetch
  split at hfetch
  · cases hfetch
    exact ⟨rfl, rfl⟩
  · cases hfetch

theorem disk_load_of_ok {found : Definitions}
    (hfound : fetched.definitions after.disk after.loader = .ok found) :
    (r.load connections key h).2.disk
      = if after.disk.hasFolder r.folder then after.disk.remove r.folder else after.disk := by
  have hdisk : after.disk? = (.ok after.disk, after) := rfl
  have hget (h : Host) : (get : HostAction Host) h = (.ok h, h) := rfl
  obtain ⟨horigin, hfolder⟩ := fetch_keeps hfetch hremote
  rw [load, bind_apply, hfetch]
  simp only [bind_apply, hdisk, hget, Action.lift_apply, hfound, delete_apply horigin, hfolder]
  generalize Project.ofDefinitions .. = p
  cases p <;> rfl

end

/-- **Clones stay where reading fails.**  After a repository was fetched, its folder is on disk at
the end of the load exactly if it was there and its files cannot be read, be it that the loader for
projects of the other mode refuses them. -/
theorem load_leaves_clone_iff {r fetched : Repository} {key : Option Host.PrivateKey}
    {h after : Host} {url : String} {branch : Value} (connections : List Connection)
    (hremote : r.origin = .remote url branch) (hfetch : r.fetch key h = (.ok fetched, after))
    (hroot : after.disk.locate r.folder ≠ some []) :
    (r.load connections key h).2.disk.hasFolder r.folder = true ↔
      after.disk.hasFolder r.folder = true ∧
        ∃ e, fetched.definitions after.disk after.loader = .error e := by
  cases hdefs : fetched.definitions after.disk after.loader with
  | error e => simp [disk_load_of_error hfetch hdefs]
  | ok found =>
    rw [disk_load_of_ok hfetch hremote hdefs]
    split_ifs with hthere
    · simp [Disk.hasFolder_remove hroot]
    · simp [hthere]

def cloned : Repository where
  origin := .remote "https://host/a.git" .null
  folder := "/repository_0/"

/-- The project file of the remote names a mode that is not known. -/
def unreadable : Host where
  disk := .empty
  remote := { files := [("zenlytic_project.yml", .map [("mode", .text "other")])] }

/-- The remote has a project of the other mode, which the loader refuses. -/
def refused : Host where
  disk := .empty
  loader := fun _ _ => .error (.malformed .wrongType)
  remote :=
    { files :=
        [("zenlytic_project.yml", .map [("mode", .text "metricflow")]),
         ("dbt_project.yml", .map [("name", .text "shop")])] }

theorem load_leaves_clone_iff_refused :
    ∃ fetched after, cloned.fetch none refused = (.ok fetched, after) ∧
      ((cloned.load [] none refused).2.disk.hasFolder cloned.folder = true ↔
        after.disk.hasFolder cloned.folder = true ∧
          ∃ e, fetched.definitions after.disk after.loader = .error e) ∧
      (cloned.load [] none refused).2.disk.hasFolder cloned.folder = true := by
  let after := (cloned.fetch none refused).2
  let fetched : Repository :=
    { cloned with
      clone := some ⟨none⟩
      branches := (Host.branchesOf "").map .text
      dbtFolder := some (findDbtFolder after.disk cloned.folder) }
  have hplace : (cloned.fetch none refused).2.disk.locate cloned.folder =
      some ["repository_0"] := by rfl
  refine ⟨fetched, after, rfl, load_leaves_clone_iff [] rfl rfl ?_, by rfl⟩
  rw [hplace]
  simp

theorem load_unreadable_leaves_clone :
    (cloned.load [] none unreadable).2.disk.hasFolder "/repository_0/" = true := by
  rfl

end Repository

end SemanticLayer
