import Reconciliation.Document.Basic
import Reconciliation.Encoding.Entity
import Reconciliation.Json.Shape
/-!
# Reading documents

A document is JSON of a fixed shape.  Attributes and attached values are kept as they stand; what they mean is decided
when the graphs are built.  Of a kind only the name is required, of a parent kind its name, of an entity its key, kind
and source, and of the whole the list of kinds.  A connection has many children and is required unless it says
otherwise.

Brackets may nest 127 deep, and four of them enclose any value that is kept.
-/
namespace Reconciliation.Document

open Json.Reader

/-- How deep brackets may still nest in a value that is kept. -/
def room : Nat := 127 - 4

def parentSpec (steps : Nat) : Json.Reader ParentSpec :=
  record steps [
    .mandatory "kind" (text steps) fun s v => { s with kind := v },
    .optional "cardinality" (choice steps Cardinality.named?) fun s v => { s with cardinality := v },
    .optional "optionality" (choice steps Optionality.named?) fun s v => { s with optionality := v }]
    ⟨"", .many, .required⟩

def kindSpec (steps : Nat) : Json.Reader KindSpec :=
  record steps [
    .mandatory "name" (text steps) fun s v => { s with name := v },
    .optional "persistent_id" (listOf steps (text steps)) fun s v => { s with keyAttributes := v },
    .optional "parents" (listOf steps (parentSpec steps)) fun s v => { s with parents := v }]
    ⟨"", [], []⟩

def entitySpec (steps : Nat) : Json.Reader EntitySpec :=
  record steps [
    .mandatory "key" (text steps) fun s v => { s with key := v },
    .mandatory "kind" (text steps) fun s v => { s with kind := v },
    .mandatory "source" (text steps) fun s v => { s with source := v },
    .optional "attributes" (mapOf steps (value steps room)) fun s v => { s with attributes := v },
    .optional "parents" (listOf steps (text steps)) fun s v => { s with parents := v },
    .optional "external" (mapOf steps (value steps room)) fun s v => { s with externals := v }]
    ⟨"", "", "", .empty, [], .empty⟩

def reader (steps : Nat) : Json.Reader Document :=
  record steps [
    .mandatory "kinds" (listOf steps (kindSpec steps)) fun d v => { d with kinds := v },
    .optional "target" (listOf steps (entitySpec steps)) fun d v => { d with target := v },
    .optional "incoming" (listOf steps (entitySpec steps)) fun d v => { d with incoming := v }]
    ⟨[], [], []⟩

/-- **Reads a document.** -/
def parse (text : String) : Except Json.Fault Document := run reader text

end Reconciliation.Document
