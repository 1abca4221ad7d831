import TailFS.Basic

/-!
# User servers

A `userServer` runs `tailscaled serve-tailfs` for the shares of one user, as that user. This
module holds its fields and the command line `run` starts the child with: the arguments are
`serve-tailfs` followed by one `(Name, Path)` pair per share (`UserServer.args_eq`), and the
child is started through `sudo -n -u <username>` when the sudo probe succeeds.
-/

namespace TailFS

/-- A `userServer`: it runs the child file server that serves `shares` as `username`. `cmd`,
`addr` and `closed` are the fields its `mu` guards; `cmd` is the child process started last, by
its number. -/
structure UserServer where
  shares : List Share
  username : GoString
  executable : GoString
  cmd : Option Nat
  addr : GoString
  closed : Bool
  deriving DecidableEq, Repr

namespace UserServer

/-- `&userServer{logf: s.logf, username: share.As, executable: executable}`. -/
def new (username executable : GoString) : UserServer :=
  { shares := [], username, executable, cmd := none, addr := [], closed := false }

/-- The arguments of `run`: `serve-tailfs`, then the `Name` and the `Path` of each share. -/
def args (u : UserServer) : List GoString :=
  u.shares.foldl (fun args s => args ++ [s.name, s.path]) [GoString.ofString "serve-tailfs"]

/-- The program `run` starts and its arguments: `sudo -n -u username executable args...` when
`canSudo` succeeds, and the executable itself otherwise. -/
def command (u : UserServer) (canSudo : Bool) : GoString × List GoString :=
  if canSudo then
    (GoString.ofString "sudo",
      [GoString.ofString "-n", GoString.ofString "-u", u.username, u.executable] ++ u.args)
  else (u.executable, u.args)

/-- The argument list holds one `(Name, Path)` pair per share, in the order of `shares`. -/
theorem args_eq (u : UserServer) :
    u.args = GoString.ofString "serve-tailfs" :: u.shares.flatMap fun s => [s.name, s.path] := by
  have append : ∀ (xs : List Share) (acc : List GoString),
      xs.foldl (fun args s => args ++ [s.name, s.path]) acc =
        acc ++ xs.flatMap fun s => [s.name, s.path] := by
    intro xs
    induction xs with
    | nil => simp
    | cons s ss ih => intro acc; simp [ih]
  simp [args, append]

/-- The name and the path of each share stand side by side in the arguments of the command,
through `sudo` or not. -/
theorem infix_command {u : UserServer} {share : Share} (h : share ∈ u.shares) (canSudo : Bool) :
    [share.name, share.path] <:+: (u.command canSudo).2 := by
  have hargs : [share.name, share.path] <:+: u.args := by
    rw [args_eq]
    exact List.infix_cons (List.infix_of_mem_flatten (List.mem_map_of_mem _ h))
  cases canSudo
  · exact hargs
  · exact hargs.trans (List.suffix_append _ _).isInfix

/-! ## The command of `run` -/

/-- What `user.Current()` returns: the `Uid` and `Name` of the user, or an error. -/
inductive CurrentUser
  | user (uid name : GoString)
  | error (err : Nat)
  deriving DecidableEq, Repr

/-- The errors `run` returns before its child runs. -/
inductive RunError
  /-- "assertNotRoot failed to find current user: %s" -/
  | currentUser (err : Nat)
  /-- "%q is root" -/
  | isRoot (name : GoString)
  /-- "stdout pipe: %w" -/
  | stdoutPipe (err : Nat)
  /-- "stderr pipe: %w" -/
  | stderrPipe (err : Nat)
  /-- "start: %w" -/
  | start (err : Nat)
  deriving DecidableEq, Repr

/-- `assertNotRoot`: an error when the current user cannot be found or has UID 0. -/
def assertNotRoot : CurrentUser → Option RunError
  | .error err => some (.currentUser err)
  | .user uid name => if uid = GoString.ofString "0" then some (.isRoot name) else none

/-- The command `run` builds, once `canSudo()` has answered `canSudo`: through `sudo`, or the
executable itself once `assertNotRoot` has passed. -/
def runCommand (u : UserServer) (canSudo : Bool) (current : CurrentUser) :
    Except RunError (GoString × List GoString) :=
  if canSudo then .ok (u.command true)
  else
    match assertNotRoot current with
    | some err => .error err
    | none => .ok (u.command false)

/-- **Never as root without `sudo -u`.** A command `run` builds runs the executable through
`sudo -n -u username`, or directly for a current user whose UID is not 0. -/
theorem runCommand_ok {u : UserServer} {canSudo : Bool} {current : CurrentUser}
    {cmd : GoString × List GoString} (h : u.runCommand canSudo current = .ok cmd) :
    canSudo = true ∧ cmd = u.command true ∨
      canSudo = false ∧ cmd = u.command false ∧
        ∃ uid name, current = .user uid name ∧ uid ≠ GoString.ofString "0" := by
  unfold runCommand at h
  cases canSudo with
  | true => exact .inl ⟨rfl, (Except.ok.inj h).symm⟩
  | false =>
    refine .inr ⟨rfl, ?_⟩
    cases current with
    | error err => cases h
    | user uid name =>
      by_cases huid : uid = GoString.ofString "0"
      · simp [assertNotRoot, huid] at h
      · simp only [assertNotRoot, huid, if_false, Except.ok.injEq, Bool.false_eq_true,
          if_false] at h
        exact ⟨h.symm, uid, name, rfl, huid⟩

end UserServer

end TailFS
