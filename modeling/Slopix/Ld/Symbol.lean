import Slopix.Ld.Object

/-!
# The symbol table of the linker

`ld/symbol.c`: `collect_definitions` enters the definitions of objects in the global table,
`resolve_archives` pulls in archive members until a pass over all objects pulls in none, and
`check_undefined` reports what is left. A bucket of the hash table holds its names newest first, and
so does the list that models the table.
-/

namespace Slopix.Ld

open Lib Elf

/-- An object: its place among the objects, and its file name. -/
structure ObjectRef where
  index : Nat
  filename : Name
  deriving DecidableEq

/-- `Symbol`. -/
structure Symbol where
  name : Name
  value : Nat
  size : Nat
  type : Nat
  binding : Nat
  file : Option ObjectRef
  shndx : Nat
  outputShndx : Nat
  deriving DecidableEq

/-- The global symbols, the one added last in front. -/
abbrev SymbolTable := List Symbol

/-- `symbol_lookup`. -/
def symbolLookup (tab : SymbolTable) (name : Name) : Option Symbol :=
  tab.find? fun s => s.name == name

/-- `symbol_add`: a symbol of an object. -/
def symbolAdd (tab : SymbolTable) (name : Name) (sym : Elf64Sym) (file : ObjectRef) : SymbolTable :=
  { name, value := sym.stValue, size := sym.stSize, type := sym.type, binding := sym.bind,
    file := some file, shndx := sym.stShndx, outputShndx := 0 } :: tab

/-- `add_linker_symbol`: an absolute symbol without a file. -/
def addLinkerSymbol (tab : SymbolTable) (name : Name) (value : Nat) : SymbolTable :=
  { name, value, size := 0, type := sttNotype, binding := stbGlobal, file := none, shndx := shnAbs,
    outputShndx := 0 } :: tab

/-- The names of `add_kernel_symbol_placeholders`. -/
def kernelSymbols : List Name :=
  ["__phys_base", "__virt_base", "__bss_start", "__bss_end", "__stack_top"].map
    fun s => s.toUTF8.toList

/-- The symbols that a kernel link defines itself, with the value 0 for now. -/
def addKernelSymbolPlaceholders (tab : SymbolTable) : SymbolTable :=
  kernelSymbols.foldl (fun tab name => addLinkerSymbol tab name 0) tab

/-- `symbol_replace` on the entry that `symbol_lookup` finds. -/
def symbolReplace : SymbolTable → Name → Elf64Sym → ObjectRef → SymbolTable
  | [], _, _, _ => []
  | s :: tab, name, sym, file =>
    if s.name = name then
      { s with value := sym.stValue, size := sym.stSize, type := sym.type, binding := sym.bind,
               file := some file, shndx := sym.stShndx } :: tab
    else s :: symbolReplace tab name sym file

/-- The three lines printed for a second global definition. -/
def multipleDefinition (name first also : Name) : LdError :=
  .exit [("ld: multiple definition of '%s'", [name]), ("  first defined in %s", [first]),
    ("  also defined in %s", [also])]

/-- One pass of the inner loop of `collect_definitions`. -/
def collectSymbol (file : ObjectRef) (d : Name × Elf64Sym) : Exec LdError SymbolTable Unit :=
  fun tab =>
    match symbolLookup tab d.1 with
    | some existing =>
      if existing.binding = stbWeak ∧ d.2.bind = stbGlobal then
        .ok ((), symbolReplace tab d.1 d.2 file)
      else if existing.binding = stbGlobal ∧ d.2.bind = stbGlobal then
        .error (multipleDefinition d.1 ((existing.file.map ObjectRef.filename).getD [])
          file.filename)
      else .ok ((), tab)
    | none => .ok ((), symbolAdd tab d.1 d.2 file)

/-- `collect_definitions`; `first` is the place of the first object among all. -/
def collectDefinitions (first : Nat) (objects : List ObjectFile) : Exec LdError SymbolTable Unit :=
  Exec.each
    (fun o : ObjectFile × Nat => Exec.each (collectSymbol ⟨o.2, o.1.filename⟩) o.1.definitions)
    (objects.zipIdx first)

/-- What `resolve_archives` works on. -/
structure LinkState where
  objects : List ObjectFile
  archives : List Archive
  global : SymbolTable

/-- The loop over the archives: the first whose index has a member for the name. -/
def firstOffer (archives : List Archive) (name : Name) : Option (Nat × Nat) :=
  archives.zipIdx.findSome? fun a => (a.1.findSymbol name).map fun i => (a.2, i)

/-- `archive_extract_member`: a member is taken once. -/
def archiveExtractMember (id : Nat × Nat) : Exec LdError LinkState (Option ObjectFile) := fun st =>
  match st.archives[id.1]? with
  | none => .ok (none, st)
  | some ar =>
    match ar.members[id.2]? with
    | none => .ok (none, st)
    | some m =>
      if m.extracted then .ok (none, st)
      else
        match memberObject ar.path m with
        | .error e => .error e
        | .ok obj =>
          .ok (some obj,
            { st with archives := st.archives.modify id.1 fun a => a.setExtracted id.2 })

/-- `add_object` and then `collect_definitions` on the new object. -/
def linkObject (obj : ObjectFile) : Exec LdError LinkState Unit := fun st =>
  match collectDefinitions st.objects.length [obj] st.global with
  | .error e => .error e
  | .ok ((), global) => .ok ((), { st with objects := st.objects ++ [obj], global })

/-- Look for a name in the archives; the result tells whether a member was pulled in. -/
def extractFor (name : Name) : Exec LdError LinkState Bool := do
  match firstOffer (← Exec.gets LinkState.archives) name with
  | none => pure false
  | some id =>
    match ← archiveExtractMember id with
    | none => pure false
    | some member =>
      linkObject member
      pure true

/-- One pass of the loop over the symbols of an object. -/
def resolveReference (name : Name) : Exec LdError LinkState Bool := do
  if (symbolLookup (← Exec.gets LinkState.global) name).isSome then pure false else extractFor name

/-- The loop over the symbols of an object. -/
def resolveReferences : List Name → Bool → Exec LdError LinkState Bool
  | [], extracted => pure extracted
  | name :: names, extracted => do
      let pulled ← resolveReference name
      resolveReferences names (extracted || pulled)

/-- The loop over the objects from index `i`; their number grows while it runs. -/
def scanObjects : Nat → Nat → Bool → Exec LdError LinkState Bool
  | 0, _, _ => Exec.stop .fuel
  | fuel + 1, i, extracted => do
      match (← Exec.gets LinkState.objects)[i]? with
      | none => pure extracted
      | some obj =>
        let extracted ← resolveReferences (obj.references.map Prod.fst) extracted
        scanObjects fuel (i + 1) extracted

/-- The members of all archives. -/
def memberCount (archives : List Archive) : Nat := (archives.map fun a => a.members.length).sum

/-- The `do ... while (extracted)`. -/
def resolveLoop : Nat → Exec LdError LinkState Unit
  | 0 => Exec.stop .fuel
  | fuel + 1 => do
      let st ← Exec.gets id
      if ← scanObjects (st.objects.length + memberCount st.archives + 1) 0 false then
        resolveLoop fuel
      else pure ()

/-- What `resolve_archives` does first: the entry point is looked for. -/
def extractEntry (entryPoint : Name) : Exec LdError LinkState Unit := do
  let _ ← resolveReference entryPoint

/-- `resolve_archives`: the entry point first, then rounds until nothing new is taken. -/
def resolveArchives (entryPoint : Name) : Exec LdError LinkState Unit := do
  extractEntry entryPoint
  resolveLoop (memberCount (← Exec.gets LinkState.archives) + 1)

/-- `check_undefined`: the lines it prints; it returns `true` when there are none. -/
def checkUndefined (objects : List ObjectFile) (global : SymbolTable) (entryPoint : Name) :
    List (String × List Name) :=
  (objects.flatMap fun obj => (obj.references.filter fun d =>
      (symbolLookup global d.1).isNone && d.2.bind == stbGlobal).flatMap fun d =>
        [("ld: undefined reference to '%s'", [d.1]), ("  referenced from %s", [obj.filename])]) ++
    if (symbolLookup global entryPoint).isNone then
      [("ld: undefined reference to '%s'", [entryPoint]), ("  (entry point not found)", [])]
    else []

end Slopix.Ld
