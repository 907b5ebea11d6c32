import Literate.Context
import Literate.Toml.Document

namespace Literate

open Toml (Value)

namespace SettingsUpdate

def text? : Value → Option Text
  | .string t => some t
  | _ => none

def flag? : Value → Option Bool
  | .boolean b => some b
  | _ => none

/-- A policy is a string, or a table with its name as the only key and nothing under it. -/
def policy? : Value → Option Policy
  | .string t => Policy.ofName? t
  | .table [(name, .table [])] => Policy.ofName? name
  | .table [(name, .array [])] => Policy.ofName? name
  | _ => none

def keys : List Text :=
  ["resolution", "output_dir", "root_chunk", "trailing_newline", "create_dirs"].map String.toList

def field? {α : Type} (fields : List (Text × Value)) (key : String) (decode : Value → Option α) :
    Option (Option α) :=
  match fields.find? fun e => e.1 = key.toList with
  | none => some none
  | some (_, v) => (decode v).map some

def ofFields? (fields : List (Text × Value)) : Option SettingsUpdate := do
  return {
    policy := ← field? fields "resolution" policy?
    outputDir := ← field? fields "output_dir" text?
    root := ← field? fields "root_chunk" text?
    trailingNewline := ← field? fields "trailing_newline" flag?
    createDirs := ← field? fields "create_dirs" flag? }

/-- Reads an update. Unknown keys are refused, so that a misspelt one is noticed. -/
def read? (t : Text) : Option SettingsUpdate := do
  let fields ← Toml.read t
  if fields.all fun e => keys.contains e.1 then ofFields? fields else none

end SettingsUpdate

/-- Reads settings in full: missing ones have their defaults, and unknown keys are passed over. -/
def Settings.read? (t : Text) : Option Settings := do
  let fields ← Toml.read t
  return ({} : Settings).update (← SettingsUpdate.ofFields? fields)

end Literate
