import TreeCheck.Dump.Decode
import TreeCheck.Files
import TreeCheck.Module.Registry
import TreeCheck.Text.Quoted

/-!
# Loaded modules

* `LoadError` — why the dump of a module cannot be loaded;
* `Program.load` — the module at a path; one that has no name takes that of its file;
* `Project` — the modules of a run in the order in which they were loaded.  No two have one name, and
  none has the name of a module without source;
* `Project.graph` — which module imports which.
-/

namespace TreeCheck

/-- Why a module cannot be loaded. -/
inductive LoadError where
  | unreadable (path : String) (cause : ReadError)
  | dump (cause : DumpError)
  | definedTwice (id first second : String)
  | reserved (path id : String)
deriving Repr, DecidableEq, Inhabited

def LoadError.message : LoadError → String
  | .unreadable p cause => s!"reading tree dump {p}: {cause.message}"
  | .dump cause => cause.message
  | .definedTwice id first second =>
    s!"module {Text.quote id} is defined by both {first} and {second}"
  | .reserved p id => s!"{p}: module id {Text.quote id} is reserved"

def Program.load (fs : Files) (path : String) : Except LoadError Program := do
  let text ← (fs.read path).mapError (.unreadable path)
  let p ← (Program.ofText text path).mapError .dump
  return if p.module = "" then { p with module := Path.moduleId path } else p

/-- A loaded module. -/
structure LoadedModule where
  path : String
  program : Program
deriving Inhabited

namespace LoadedModule

/-- The name under which other modules import this one. -/
def id (m : LoadedModule) : String := m.program.module

def imports (m : LoadedModule) : List String := m.program.imports

end LoadedModule

/-- The modules of a run. -/
structure Project where
  modules : List LoadedModule := []
  nodup : (modules.map LoadedModule.id).Nodup := by exact List.nodup_nil
  notBuiltin : ∀ m ∈ modules, isBuiltinModule m.id = false := by simp

namespace Project

instance : Inhabited Project := ⟨{}⟩

def find? (p : Project) (id : String) : Option LoadedModule := p.modules.find? fun m => m.id == id

theorem id_of_find? {p : Project} {id : String} {m : LoadedModule} (h : p.find? id = some m) :
    m ∈ p.modules ∧ m.id = id :=
  ⟨List.mem_of_find?_eq_some h, by simpa using List.find?_some h⟩

theorem not_mem_of_find?_eq_none {p : Project} {id : String} (h : p.find? id = none) :
    id ∉ p.modules.map LoadedModule.id := by
  intro hid
  obtain ⟨m, hm, rfl⟩ := List.mem_map.1 hid
  have hne := List.find?_eq_none.1 h m hm
  simp at hne

def add (p : Project) (m : LoadedModule) : Except LoadError Project :=
  match h : p.find? m.id with
  | some first => .error (.definedTwice m.id first.path m.path)
  | none =>
    if hb : isBuiltinModule m.id = true then .error (.reserved m.path m.id)
    else .ok {
      modules := p.modules ++ [m]
      nodup := by
        rw [List.map_append, List.nodup_append]
        refine ⟨p.nodup, by simp, ?_⟩
        intro x hx y hy hxy
        rw [List.map_singleton, List.mem_singleton] at hy
        exact not_mem_of_find?_eq_none h (hy ▸ hxy ▸ hx)
      notBuiltin := by
        intro k hk
        rcases List.mem_append.1 hk with hk | hk
        · exact p.notBuiltin k hk
        · rw [List.mem_singleton.1 hk]
          simpa using hb }

/-- Load the modules at paths, up to the first that cannot be loaded. -/
def load (fs : Files) (paths : List String) : Except LoadError Project :=
  paths.foldlM (fun p path => do p.add ⟨path, ← Program.load fs path⟩) {}

def graph (p : Project) : ModuleGraph :=
  p.modules.foldl (fun g m => g.add m.id m.imports) {}

end Project

end TreeCheck
