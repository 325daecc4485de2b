import SchemaByExample.Main
import SchemaByExample.Samples
import SchemaByExample.Proofs.Draft04.SelfAcceptance
import SchemaByExample.Proofs.Schema.MemberOrder
import SchemaByExample.Proofs.Schema.NormalForm
import SchemaByExample.Proofs.Schema.Selection
import SchemaByExample.Proofs.Shape.Image
import SchemaByExample.Proofs.Shape.Mirror
import SchemaByExample.Proofs.Shape.Noninterference
import SchemaByExample.Proofs.Shape.Recovery
import SchemaByExample.Proofs.Command.Session
import SchemaByExample.Proofs.Files.Contents
import SchemaByExample.Proofs.Command.Loading
import SchemaByExample.Proofs.Schema.FrontDoors
import SchemaByExample.Proofs.Command.Listing
import SchemaByExample.Proofs.Command.Output
import SchemaByExample.Proofs.Shape.NumericText
import SchemaByExample.Proofs.Schema.Language
import SchemaByExample.Proofs.Shape.Collapse
import SchemaByExample.Proofs.Schema.Emission
import SchemaByExample.Proofs.Schema.Kernel
import SchemaByExample.Proofs.Command.Pointing
import SchemaByExample.Proofs.Command.Lines
import SchemaByExample.Proofs.Schema.Places
import SchemaByExample.Proofs.Filter.Selecting
import SchemaByExample.Proofs.Shape.Representative
import SchemaByExample.Proofs.Shape.LongestPrefix
import SchemaByExample.Proofs.Data.Translation
