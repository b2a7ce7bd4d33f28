import GoPosix.Common.Flags

/-!
# What a command writes

A command writes text, or an envelope in JSON with its result or an error. The envelope is kept as
what it holds; the parts that are the same for every command are left out.
-/

namespace GoPosix.Common

open Bytes

inductive Write (δ : Type)
  | text (s : Bytes)
  | envelope (command : Bytes) (exitCode : Nat) (data : Option δ) (error : Option (Bytes × Bytes))

inductive Exit
  | code (n : Nat)
  | forever
  | crash
  deriving DecidableEq

structure Outcome (δ : Type) where
  stdout : List (Write δ)
  stderr : List (Write δ)
  exit : Exit

variable {δ : Type}

def render (cmdName : Bytes) (data : δ) (jsonMode : Bool) (textFn : List (Write δ)) :
    List (Write δ) :=
  if jsonMode then [.envelope cmdName 0 (some data) none] else textFn

def renderError (cmdName : Bytes) (exitCode : Nat) (errCode message : Bytes) (jsonMode : Bool) :
    List (Write δ) :=
  if jsonMode then [.envelope cmdName exitCode none (some (errCode, message))] else []

def hasJSONFlag (args : List Bytes) : Bool := args.any (· = str "--json")

def renderFlagError (name : Bytes) (args : List Bytes) (err : FlagError) (exitCode : Nat) :
    Outcome δ :=
  if hasJSONFlag args
    then ⟨[], renderError name exitCode (str "FLAG_ERROR") err.msg true, .code exitCode⟩
  else ⟨[], [.text (name ++ str ": " ++ err.msg ++ str "\n")], .code exitCode⟩

end GoPosix.Common
