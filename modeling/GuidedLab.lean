import GuidedLab.Main
import GuidedLab.Proofs.Tree.Description
import GuidedLab.Proofs.Script.Completion
import GuidedLab.Proofs.Script.Interruption
import GuidedLab.Proofs.Tree.Links
import GuidedLab.Proofs.Tree.Chain
import GuidedLab.Proofs.Component.Account
import GuidedLab.Proofs.Tree.Account
import GuidedLab.Proofs.Script.Events
import GuidedLab.Proofs.Component.Refusal
import GuidedLab.Proofs.Component.InPlace
import GuidedLab.Proofs.Tree.Refusal
import GuidedLab.Proofs.Script.Refusal
import GuidedLab.Proofs.Source.Consistent
import GuidedLab.Proofs.Script.Contained
import GuidedLab.Proofs.Script.Independence
import GuidedLab.Proofs.Script.Finished
import GuidedLab.Proofs.Disk.Job
import GuidedLab.Proofs.Session.Page
import GuidedLab.Proofs.Session.Recordings
import GuidedLab.Proofs.Session.Resumable
import GuidedLab.Proofs.CommandLine.Refinement
import GuidedLab.Proofs.Run.StateFile
import GuidedLab.Proofs.Script.Report
import GuidedLab.Proofs.CommandLine.Runs
import GuidedLab.Proofs.Component.Effect
import GuidedLab.Proofs.Tree.Fits
import GuidedLab.Proofs.Script.Structure
import GuidedLab.Proofs.Session.Losses
import GuidedLab.Proofs.Script.Chain
import GuidedLab.Proofs.Source.Readable
import GuidedLab.Proofs.Source.Named
import GuidedLab.Proofs.Script.Sections
import GuidedLab.Proofs.Script.Check
import GuidedLab.Proofs.Run.Name
import GuidedLab.Proofs.Script.Quotation
import GuidedLab.Proofs.CommandLine.Start
import GuidedLab.Proofs.Tree.Visit
