import CSSC.Commands.FrontEnd
import CSSC.Library.Dialogue

/-!
# The front end runs a command

`sccs` looks its command up in a table. Most commands are programs; others are macros, `delta:mysrp/get:ixbeskcl -t`
for `delget`, whose parts are commands again and take some of the flags, or they have code of their own. All of that
is one function, `command`, which calls itself.

## The model

The front end is a `Driver`: a program that asks the world for its `Deed`s, to run a program and wait, to become a
program, to unedit a file, and so on, and goes on with the `Answer`. What comes of a deed may be anything. A process
that `dodiff` forks is run before its parent goes on. How the command line and the environment set the variables is
left out.

The words before the arguments are split off by `splitWords`, and of the arguments those are passed on (`keepArg`,
`copyArgs`) that the command takes; the array `nav` has room for a thousand of them.
-/

namespace CSSC.Commands

open CSSC.Library CSSC.Library.Dialogue

/-- An argument. -/
abbrev Arg := List UInt8

/-- A literal. -/
def lit (s : String) : Arg := s.toList.map fun c => UInt8.ofNat c.toNat

/-! ### The table -/

/-- What `clean` is called for: `CLEANC`, `INFOC`, `CHECKC` and `TELLC`. -/
inductive CleanMode where
  | cleanc
  | infoc
  | checkc
  | tellc
  deriving DecidableEq, Repr

/-- `sccsoper`, with the path or the macro. -/
inductive Oper where
  /-- "call a program" -/
  | prog (path : Arg)
  /-- "command substitution macro" -/
  | cMacro (body : Arg)
  /-- "fix a delta" -/
  | fix
  /-- "clean out recreatable files" -/
  | clean (mode : CleanMode)
  /-- "unedit a file" -/
  | unedit
  /-- "diff between sccs & file out" -/
  | diffs
  /-- "internal call to diff program" -/
  | dodiff (path : Arg)
  /-- "enter new files" -/
  | enter
  deriving DecidableEq, Repr

/-- The bits of `sccsflags`. -/
inductive SccsFlag where
  /-- "no s. on front of args" -/
  | noSdot
  /-- "protected (e.g., admin)" -/
  | realUser
  /-- "not implemented in GNU CSSC" -/
  | warnMissing
  /-- "issue special message re help" -/
  | noHelpHere
  deriving DecidableEq, Repr

/-- `struct sccsprog`. -/
structure SccsProg where
  sccsname : Arg
  sccsoper : Oper
  sccsflags : List SccsFlag
  deriving DecidableEq, Repr

/-- `bitset(bit, cmd->sccsflags)`. -/
def SccsProg.bitset (cmd : SccsProg) (bit : SccsFlag) : Bool := cmd.sccsflags.contains bit

/-- `SccsProg`. -/
def sccsProg : List SccsProg := [
  ⟨lit "admin", .prog (lit "admin"), [.realUser]⟩,
  ⟨lit "cdc", .prog (lit "cdc"), []⟩,
  ⟨lit "comb", .prog (lit "comb"), [.warnMissing]⟩,
  ⟨lit "delta", .prog (lit "delta"), []⟩,
  ⟨lit "get", .prog (lit "get"), []⟩,
  ⟨lit "unget", .prog (lit "unget"), []⟩,
  ⟨lit "help", .prog (lit "help"), [.noHelpHere, .noSdot]⟩,
  ⟨lit "prs", .prog (lit "prs"), []⟩,
  ⟨lit "prt", .prog (lit "prt"), []⟩,
  ⟨lit "rmdel", .prog (lit "rmdel"), [.realUser]⟩,
  ⟨lit "val", .prog (lit "val"), []⟩,
  ⟨lit "what", .prog (lit "what"), [.noSdot]⟩,
  ⟨lit "sccsdiff", .prog (lit "sccsdiff"), [.realUser]⟩,
  ⟨lit "edit", .cMacro (lit "get -e"), [.noSdot]⟩,
  ⟨lit "delget", .cMacro (lit "delta:mysrp/get:ixbeskcl -t"), [.noSdot]⟩,
  ⟨lit "deledit", .cMacro (lit "delta:mysrp -n/get:ixbskcl -e -t -g"), [.noSdot]⟩,
  ⟨lit "fix", .fix, [.noSdot]⟩,
  ⟨lit "clean", .clean .cleanc, [.realUser, .noSdot]⟩,
  ⟨lit "info", .clean .infoc, [.realUser, .noSdot]⟩,
  ⟨lit "check", .clean .checkc, [.realUser, .noSdot]⟩,
  ⟨lit "tell", .clean .tellc, [.realUser, .noSdot]⟩,
  ⟨lit "unedit", .unedit, [.noSdot]⟩,
  ⟨lit "diffs", .diffs, [.noSdot, .realUser]⟩,
  ⟨lit "-diff", .dodiff (lit "bdiff"), [.noSdot, .realUser]⟩,
  ⟨lit "print", .cMacro (lit "prs -e/get -p -m -s"), [.noSdot]⟩,
  ⟨lit "branch", .cMacro (lit "get:ixrc -e -b/delta: -s -n -ybranch-place-holder/get:pl -e -t -g"), [.noSdot]⟩,
  ⟨lit "enter", .enter, [.noSdot]⟩,
  ⟨lit "create", .cMacro (lit "enter/get:ixeskcl -t"), [.noSdot]⟩]

/-- `lookup`. -/
def lookup (name : Arg) : Option SccsProg := sccsProg.find? fun cmd => cmd.sccsname = name

/-! ### What the front end does -/

/-- What is asked of the world. -/
inductive Deed where
  /-- A program is run in a process of its own. Its output may go to the pipe. -/
  | run (path : Arg) (argv : List Arg) (realUser piped : Bool)
  /-- The process becomes a program. -/
  | become (path : Arg) (argv : List Arg) (realUser : Bool)
  /-- `unedit`. -/
  | unedit (fn : Arg)
  /-- `clean`. -/
  | clean (mode : CleanMode) (argv : List Arg)
  /-- There is a pipe, and a process at its end. -/
  | pipe
  | link (old new : Arg)
  | unlink (name : Arg)
  deriving DecidableEq, Repr

/-- What comes of it. -/
inductive Answer where
  /-- A program ends with a status, or a function returns a number. -/
  | returns (n : ℕ)
  /-- A function exits; or there is no process, no pipe or no program. -/
  | exits (status : ℕ)
  deriving DecidableEq, Repr

/-- Something that was done. -/
abbrev Entry := Deed × Answer

/-- What is printed. -/
inductive Message where
  /-- `Unknown command "%s"`, and the usage. -/
  | unknownCommand (name : Arg)
  /-- `Warning: the "%s" command is not yet implemented.` -/
  | notImplemented (name : Arg)
  /-- `GNU CSSC does not provide the "%s" command;` and so on. -/
  | notProvided (name : Arg)
  /-- `You may not use full pathnames or ".." but you specifed '%s'` -/
  | fullPathname (arg : Arg)
  /-- `Filename(s) too long: %s %s` -/
  | tooLong (str1 str2 : Arg)
  /-- `-r flag needed for fix command` -/
  | needsR
  /-- The name of a file that is entered. -/
  | heading (name : Arg)
  /-- The name of a g-file that is compared, between dashes. -/
  | diffHeading (gfile : Arg)
  /-- `cannot fork`, `dodiff: pipe failed` or `dodiff: fork failed` -/
  | cannotFork
  /-- `callprog: setting stdout without forking` -/
  | withoutForking
  | usage
  deriving DecidableEq, Repr

/-- The variables. -/
structure Vars where
  /-- `OutFile` is a file. -/
  outFile : Bool
  /-- What was printed. -/
  printed : List Message
  deriving DecidableEq, Repr

/-- A program of the front end. -/
abbrev Talk := Dialogue Entry Vars

/-- The settings of the front end, and the world. -/
structure Driver where
  /-- `SccsDir`. -/
  sccsDir : Arg
  /-- `SccsPath`. -/
  sccsPath : Arg
  /-- `RealUser`: the flag `-r` was given. -/
  realUser : Bool
  /-- `TrustEnvironment`: the front end does not run for another user. -/
  trust : Bool
  /-- Which names are those of directories, after what was done. -/
  isdir : List Entry → Arg → Bool
  /-- The world. -/
  answer : List Entry → Deed → Answer

/-- Something is printed. -/
def say (m : Message) : Talk Unit := modify fun v => { v with printed := v.printed ++ [m] }

/-- `makefile`. If the name does not fit, `gstrbotch` ends the process. -/
def makename (d : Driver) (name : Arg) : Talk (Option Arg) := do
  let log ← logged
  match makefile d.sccsDir d.sccsPath (d.isdir log) name with
  | .error b => do
    say (.tooLong b.str1 b.str2)
    exit 70
  | .ok none => do
    say (.fullPathname name)
    return none
  | .ok (some p) => return some p

/-- `gstrcat(to, from, FBUFSIZ)`. -/
def concat (dest src : Arg) : Talk Arg :=
  match gstrcat dest src 1024 with
  | .error b => do
    say (.tooLong b.str1 b.str2)
    exit 70
  | .ok buf => return buf

/-! ### The arguments of a command -/

/-- The words of a part of a macro. -/
structure Words where
  words : List Arg
  /-- `editchs`: the flags that the part takes. All are taken if it is null. -/
  editchs : Option Arg
  deriving DecidableEq, Repr

/-- A character of a word. -/
def wordChar (c : UInt8) : Bool := c ≠ 32 && c ≠ 47 && c ≠ 58

/-- A character of `editchs`. -/
def editChar (c : UInt8) : Bool := c ≠ 47 && c ≠ 32

/-- The loop over `arg0`. Each round takes a character, so the length of the text bounds the rounds. -/
def wordsLoop : ℕ → Arg → Words → Words
  | 0, _, w => w
  | _, [], w => w
  | fuel + 1, c :: p, w =>
    if c = 47 then w
    else
      let q := (c :: p).dropWhile (· = 32)
      let words := w.words ++ [q.takeWhile wordChar]
      match q.dropWhile wordChar with
      | 58 :: p => wordsLoop fuel (p.dropWhile editChar) ⟨words, some (p.takeWhile editChar)⟩
      | p => wordsLoop fuel p ⟨words, w.editchs⟩

/-- What `command` makes of `arg0`. -/
def splitWords (arg0 : Arg) : Words := wordsLoop (arg0.length + 1) arg0 ⟨[], none⟩

/-- The name of the command: the first word, or else the first argument. With it come the words that stay before the
arguments, and the arguments. -/
def takeName : List Arg → List Arg → Option (Arg × List Arg × List Arg)
  | name :: words, argv => some (name, words, argv)
  | [], name :: argv => some (name, [], argv)
  | [], [] => none

/-- `**np == '-'`. -/
def isFlag (p : Arg) : Bool := p.head? = some 45

/-- A flag is passed on. -/
def passes (editchs : Option Arg) (p : Arg) : Bool :=
  match p.tail, editchs with
  | [], _ => true
  | _, none => true
  | c :: _, some chs => chs.contains c

/-- An argument that is passed on, and in which form. -/
def keepArg (d : Driver) (noSdot : Bool) (editchs : Option Arg) (p : Arg) : Talk (Option Arg) :=
  if isFlag p then return if passes editchs p then some p else none
  else if noSdot then return some p
  else makename d p

/-- The pointers of `nav` from `ap` on. -/
def navSize : ℕ := 999

/-- "Copy remaining arguments doing editing as appropriate." What is behind the end of `nav` may be anything. -/
def copyArgs (d : Driver) (noSdot : Bool) (editchs : Option Arg) : List Arg → List Arg → Talk (List Arg)
  | [], ap => if ap.length < navSize then return ap else crash
  | p :: argv, ap => do
    let kept ← keepArg d noSdot editchs p
    match kept with
    | none => copyArgs d noSdot editchs argv ap
    | some p => if ap.length < navSize then copyArgs d noSdot editchs argv (ap ++ [p]) else crash

/-- A warning. -/
def warn (missing : Bool) (m : Message) : Talk Unit := if missing then say m else pure ()

/-- The command and its arguments, unless it is unknown. -/
def prologue (d : Driver) (argv : List Arg) (arg0 : Arg) : Talk (Option (SccsProg × List Arg)) :=
  match takeName (splitWords arg0).words argv with
  -- `strcmp` with a null pointer
  | none => crash
  | some (name, words, argv) =>
    match lookup name with
    | none => do
      say (.unknownCommand name)
      return none
    | some cmd => do
      warn (cmd.bitset .warnMissing) (.notImplemented name)
      warn (cmd.bitset .noHelpHere) (.notProvided name)
      let ap ← copyArgs d (cmd.bitset .noSdot) (splitWords arg0).editchs argv (name :: words)
      return some (cmd, ap.tail)

/-! ### The operations -/

/-- `try_to_exec`, and what is done when that fails. Which file is run is for the world to say. -/
def become (d : Driver) (path : Arg) (argv : List Arg) (realUser : Bool) (failed : ℕ) : Talk ℤ := do
  let a ← ask d.answer (.become path argv realUser)
  match a with
  | .returns n => exit n
  | .exits _ => exit failed

/-- `callprog`. -/
def callprog (d : Driver) (path : Arg) (realUser : Bool) (argv : List Arg) (forkflag : Bool) : Talk ℤ :=
  if argv = [] then return -1
  else do
    let v ← vars
    if forkflag then do
      let a ← ask d.answer (.run path argv (realUser || d.realUser) v.outFile)
      match a with
      | .returns n => do
        modify fun v => { v with outFile := false }
        return n
      | .exits _ => do
        say .cannotFork
        exit 71
    else if v.outFile then do
      -- "TODO: make this impossible."
      say .withoutForking
      exit 70
    else become d path argv (realUser || d.realUser) 69

/-- "step through & execute each part of the macro". Each round takes a character. -/
def macroLoop (call : Bool → Arg → Talk ℤ) : ℕ → Arg → Talk ℤ
  | 0, _ => return 0
  | _, [] => return 0
  | fuel + 1, c :: s =>
    ifZero (call ((c :: s).contains 47) (c :: s)) <|
      match (c :: s).dropWhile (· ≠ 47) with
      -- the loop goes past the end of the string
      | [] => crash
      | _ :: s => macroLoop call fuel s

/-- The files that were unedited. -/
def uneditLoop (d : Driver) : List Arg → Talk (List Arg)
  | [] => return []
  | fn :: argv => do
    let a ← ask d.answer (.unedit fn)
    match a with
    | .exits n => exit n
    | .returns n => do
      let names ← uneditLoop d argv
      return if n = 0 then names else fn :: names

/-- `tail` and `tail_nc`: the name behind the last slash that a name stands behind. -/
def tailFrom : Arg → Arg → Arg
  | fn, [] => fn
  | fn, c :: p => tailFrom (if c = 47 && p ≠ [] && p.head? ≠ some 47 then p else fn) p

/-- `tail`. -/
def tail (fn : Arg) : Arg := tailFrom fn fn

/-- A process that is forked. It gives back nothing; it must not return. -/
def child (m : Talk ℤ) : Talk Unit := fun v log =>
  ⟨match (m v log).ending with
    | .exit _ => .value ()
    | _ => .undefined, v, (m v log).added⟩

/-- `dodiff`. -/
def dodiff (d : Driver) (call : List Arg → Bool → Arg → Talk ℤ) (getv : List Arg) (gfile : Arg) : Talk ℤ := do
  say (.diffHeading gfile)
  let a ← ask d.answer .pipe
  match a with
  | .exits _ => do
    say .cannotFork
    exit 71
  | .returns _ => do
    child (call getv false (lit "-diff:elsfhbCunaBdHpqsvwyD"))
    modify fun v => { v with outFile := true }
    call getv true (lit "get:rcixt -s -k -p")

/-- "for each file, do the diff" -/
def diffLoop (d : Driver) (call : List Arg → Bool → Arg → Talk ℤ) (flags : List Arg) : List Arg → ℤ → Talk ℤ
  | [], rval => return rval
  | name :: argv, rval => do
    let thisRet ← dodiff d call (flags ++ [name]) (tail name)
    diffLoop d call flags argv (if rval = 0 then thisRet else rval)

/-- `execvp`: the process goes on if it cannot become the program. -/
def execvp (d : Driver) (path : Arg) (argv : List Arg) (realUser : Bool) : Talk Unit := do
  let a ← ask d.answer (.become path argv realUser)
  match a with
  | .returns n => exit n
  | .exits _ => return ()

/-- `drop_privs` and "execute the diff program of choice", with `-c` for `-C`, and the standard input before the last
argument. `try_to_exec` is given `argv`, which has come to its end; it is called too if `diff` cannot be executed. -/
def runDiff (d : Driver) (path : Arg) (ap : List Arg) : Talk ℤ :=
  if navSize ≤ ap.length + 1 then crash
  else
    let ap := ap.map fun a => if lit "-C" <+: a then lit "-c" ++ a.drop 2 else a
    if d.trust then do
      execvp d (lit "diff") (ap.dropLast ++ lit "-" :: ap.getLast?.toList) true
      become d path [] true 71
    else become d path [] true 71

/-- In `do_enter`: if `admin` returned zero the file is moved away. -/
def moveAway (d : Driver) (rval : ℤ) (source : Arg) : Talk Unit :=
  if rval = 0 then do
    let backup ← concat (lit ",") (tail source)
    let a ← ask d.answer (.link source backup)
    if a = .returns 0 then do
      let _ ← ask d.answer (.unlink source)
      return ()
    else return ()
  else return ()

/-- `do_enter`: "do an admin for each file". The first file has lost its directory when it is moved away. -/
def enterLoop (d : Driver) (call : List Arg → Bool → Arg → Talk ℤ) (flags : List Arg) :
    Bool → List Arg → ℤ → Talk ℤ
  | _, [], rval => return rval
  | first, name :: names, _ => do
    say (.heading name)
    let opt ← concat (lit "-i") name
    let rval ← call (opt :: flags ++ [tail name]) true (lit "admin")
    moveAway d rval (if first then tail name else name)
    enterLoop d call flags false names rval

/-- "Interpret operation associated with this command." The other commands are called by `call`. -/
def perform (d : Driver) (call : List Arg → Bool → Arg → Talk ℤ) (cmd : SccsProg) (args : List Arg)
    (forkflag : Bool) : Talk ℤ :=
  match cmd.sccsoper with
  | .prog path => callprog d path (cmd.bitset .realUser) (cmd.sccsname :: args) forkflag
  | .cMacro body => macroLoop (call args) (body.length + 1) body
  | .fix =>
    match args with
    | [] => do
      say .needsR
      return 64
    | arg :: rest =>
      if lit "-r" <+: arg then
        -- "get the version with all changes", "now remove that version from the s-file"
        ifZero (call args true (lit "get -k")) <| ifZero (call args true (lit "rmdel:r")) <|
          -- "and edit the old version"
          call rest false (lit "get -e -g")
      else do
        say .needsR
        return 64
  | .clean mode => do
    let a ← ask d.answer (.clean mode (cmd.sccsname :: args))
    match a with
    | .returns n => return n
    | .exits n => exit n
  | .unedit => do
    let names ← uneditLoop d args
    if names = [] then return 0 else call names true (lit "get")
  | .diffs => diffLoop d call (args.takeWhile isFlag) (args.dropWhile isFlag) 0
  | .dodiff path => runDiff d path (cmd.sccsname :: args)
  | .enter => enterLoop d call (args.takeWhile isFlag) true (args.dropWhile isFlag) 0

/-- `command`. The fuel bounds how deep its calls go; with none left the program is undefined. -/
def command (d : Driver) : ℕ → List Arg → Bool → Arg → Talk ℤ
  | 0, _, _, _ => crash
  | fuel + 1, argv, forkflag, arg0 => do
    let r ← prologue d argv arg0
    match r with
    | none => return 64
    | some (cmd, args) => perform d (command d fuel) cmd args forkflag

/-- The end of `main`: what is behind the options is a command. It is not to be run where a proof is checked. -/
@[irreducible] def sccs (d : Driver) (argv : List Arg) : Talk ℤ :=
  if argv = [] then do
    say .usage
    return 1
  else command d 3 argv false []

end CSSC.Commands
