import OxKv.Format.SstSafe
import OxKv.Format.SstCut
import OxKv.Ownership
import OxKv.Runs.LevelOne
import OxKv.Mirror.Previous
import OxKv.Mirror.Sticky
import OxKv.Runs.CommitView
import OxKv.Runs.Clones
import OxKv.Snapshot.Width
import OxKv.Snapshot.Save
import OxKv.Policy.Validators
import OxKv.Runs.Events
import OxKv.Lucene.Words
import OxKv.Lucene.Regex
import OxKv.Lucene.Boolean
import OxKv.Lucene.Leaves
import OxKv.Cache.Ghost
import OxKv.Orphans
